import Mosura.ValueSetVisit

/-! The order that `establish_topological_order` leaves, and the components `solve` is in while it
follows it. -/

namespace Mosura

open WeakTopological

namespace DataFlow

/-- `x` is reached from the root nodes along the successors. -/
def Reachable (d : DataFlow) (f : Funcdata) (x : ℕ) : Prop :=
  ∃ r ∈ d.rootNodes, Relation.ReflTransGen (fun a b => b ∈ d.succ f a) r x

/-- The simulated root has an index of its own, and the root nodes as successors. -/
theorem succ_root (d : DataFlow) (f : Funcdata) :
    d.succ f d.valueNodes.length = d.rootNodes := by
  rw [succ, successors, List.getElem?_eq_none le_rfl]
  rfl

theorem succ_lt {d : DataFlow} {f : Funcdata} {x y : ℕ} (h : y ∈ d.succ f x) :
    y < d.valueNodes.length :=
  (d.successors_spec f x).2 y h

end DataFlow

namespace OrderState

variable {succ : ℕ → List ℕ} {s s' : OrderState} {base r k x : ℕ}
variable {L C D stack : List ℕ} {comps : List (List ℕ)}

/-- What the ordering leaves for `solve`: the listed nodes, linked by `next`, in a weak topological
order, with the heads and the records of its components. -/
structure Ordered (succ : ℕ → List ℕ) (base : ℕ) (s : OrderState) (L : List ℕ)
    (comps : List (List ℕ)) : Prop extends Order succ L comps where
  follows : Follows s.next s.orderPartition.startNode L
  partHeads : ∀ x ∈ L, ∀ k, s.partHead x = some k ↔ HeadsAt base comps x k
  records : ∃ old recs, s.recordStorage = old ++ recs ∧ old.length = base ∧
    List.Forall₂ Bounds recs comps

/-- The state in which `establish_topological_order` starts the visit of the root. -/
def reset (s : OrderState) : OrderState :=
  { s with
    count := fun _ => 0, next := fun _ => none, partHead := fun _ => none, depthFirstIndex := 0 }

theorem numbered_reset (hs : s.nodeStack = []) : Numbered s.reset := by
  have hstack : s.reset.nodeStack = [] := hs
  constructor
  · intro x
    rw [hstack]
    simp [reset]
  · rw [hstack]
    exact .nil
  · rw [hstack]
    simp
  · exact fun _ _ => rfl

theorem work_reset_le (n : ℕ) : work n s.reset ≤ (n + 1) * (n + 2) := by
  have hcard : ∀ p : ℕ → Prop, [DecidablePred p] →
      ((Finset.range (n + 1)).filter p).card ≤ n + 1 := fun p _ =>
    (Finset.card_filter_le _ _).trans (Finset.card_range _).le
  unfold work
  calc _ ≤ (n + 1) * (n + 1) + (n + 1) :=
        Nat.add_le_add (Nat.mul_le_mul_right _ (hcard _)) (hcard _)
    _ = (n + 1) * (n + 2) := by ring

/-- The root is placed first, and the rest is the order. -/
theorem exists_ordered (d : DataFlow) (f : Funcdata) (hs : s.nodeStack = []) :
    ∃ s' L comps, establishTopologicalOrder d f s = some s' ∧
      Ordered (d.succ f) s.recordStorage.length s' L comps ∧
      (∃ recs, s'.recordStorage = s.recordStorage ++ recs ∧ List.Forall₂ Bounds recs comps) ∧
      (∀ x, x ∈ L ↔ d.Reachable f x) ∧ s'.depthFirstIndex ≤ visitBound d := by
  obtain ⟨s', part', h, N, T, comps, heq, hv, hl, hspend⟩ :=
    visit_spec d f (visitBound d) s.reset d.valueNodes.length {} [] (numbered_reset hs) rfl le_rfl
      (work_reset_le _) lists_nil (by simp)
  rw [List.append_nil] at hl
  have hT : T = [] := by
    by_contra hne
    obtain ⟨t, -, y, -, hy, -⟩ := hv.back hne
    rw [show s.reset.nodeStack = [] from hs] at hy
    cases hy
  subst hT
  obtain ⟨L, rfl⟩ : ∃ L, N = d.valueNodes.length :: L := by
    have hhead := (hv.done rfl).1
    cases N with
    | nil => cases hhead
    | cons a L => exact ⟨L, by rw [Option.some.inj hhead]⟩
  have hroot : d.valueNodes.length ∉ L := (List.nodup_cons.mp hv.nodup).1
  -- no edge comes to the root, so it is in no component
  have hstretch : ∀ C ∈ comps, C <:+: L := by
    intro C hC
    rcases List.infix_cons_iff.mp (hv.components.stretch C hC) with hpre | hin
    · obtain ⟨a, l, rfl⟩ := List.exists_cons_of_ne_nil (hv.components.ne_nil C hC)
      have ha : a = d.valueNodes.length := (List.cons_prefix_cons.mp hpre).1
      obtain ⟨x, hx⟩ := hv.headed _ hC (by rw [ha]; rfl)
      exact absurd (DataFlow.succ_lt hx) (lt_irrefl _)
    · exact hin
  have hclosed : ∀ x ∈ d.valueNodes.length :: L, ∀ y ∈ d.succ f x, y ∈ L := by
    intro x hx y hy
    have hy0 := hv.closed x (.inl hx) y hy
    by_contra hyL
    have hne : y ≠ d.valueNodes.length := (DataFlow.succ_lt hy).ne
    exact hy0 (hv.count y (by simp [hne, hyL]) (by simp))
  have hreach : ∀ x, x ∈ L ↔ d.Reachable f x := by
    intro x
    constructor
    · intro hx
      have hin := hv.within {z | z = d.valueNodes.length ∨ d.Reachable f z} (.inl rfl) ?_ x
        (.inl (List.mem_cons_of_mem _ hx))
      · exact hin.resolve_left fun h => hroot (h ▸ hx)
      · rintro z (rfl | ⟨r, hr, hrz⟩) y hy -
        · rw [d.succ_root f] at hy
          exact .inr ⟨y, hy, .refl⟩
        · exact .inr ⟨r, hr, hrz.tail hy⟩
    · rintro ⟨r, hr, hrx⟩
      induction hrx with
      | refl => exact hclosed _ List.mem_cons_self r (by rw [d.succ_root f]; exact hr)
      | tail _ hbc ih => exact hclosed _ (List.mem_cons_of_mem _ ih) _ hbc
  refine ⟨{ s' with orderPartition := { part' with startNode := s'.next d.valueNodes.length } },
    L, comps, ?_, ?_, hv.records, hreach, ?_⟩
  · have hstart : part'.startNode = some d.valueNodes.length := hl.1.1
    change (visit d f (visitBound d) s.reset d.valueNodes.length {}).bind _ = _
    rw [heq]
    simp only [Option.bind_some, hstart, Option.bind_eq_bind]
  · refine ⟨⟨⟨hv.components.ne_nil, hstretch, hv.components.nested, hv.components.heads⟩,
      (List.nodup_cons.mp hv.nodup).2, fun u hu v huv => ?_⟩, hl.1.2,
      fun x hx => hv.heads x (List.mem_cons_of_mem _ hx), ?_⟩
    · rcases hv.edges u (List.mem_cons_of_mem _ hu) v huv with htop | hb | hb
      · exact absurd htop WithTop.zero_ne_top
      · exact .inl (hb.of_cons fun h => hroot (h ▸ hu))
      · exact .inr hb
    · obtain ⟨recs, hrecs, hall⟩ := hv.records
      exact ⟨s.recordStorage, recs, hrecs, rfl, hall⟩
  · have hsum : s'.depthFirstIndex ≤ 0 + work d.valueNodes.length s.reset :=
      (Nat.le_add_right _ _).trans hspend
    exact hsum.trans (by rw [Nat.zero_add]; exact work_reset_le _)

/-- The record `r` is that of the component `C`. -/
def At (base : ℕ) (comps : List (List ℕ)) (r : ℕ) (C : List ℕ) : Prop :=
  ∃ j, comps[j]? = some C ∧ r = base + j

theorem At.mem (h : At base comps r C) : C ∈ comps := by
  obtain ⟨j, hj, -⟩ := h
  exact List.mem_of_getElem? hj

theorem headsAt_iff : HeadsAt base comps x k ↔ ∃ C, At base comps k C ∧ C.head? = some x := by
  constructor
  · rintro ⟨j, C, hj, hx, hk⟩
    exact ⟨C, ⟨j, hj, hk⟩, hx⟩
  · rintro ⟨C, ⟨j, hj, hk⟩, hx⟩
    exact ⟨j, C, hj, hx, hk⟩

/-- The record `r` is that of a component around `x`. -/
def Encloses (base : ℕ) (comps : List (List ℕ)) (x r : ℕ) : Prop := ∃ C, At base comps r C ∧ x ∈ C

/-- A stack of components around `x`, the inner ones first. -/
structure StackAt (base : ℕ) (comps : List (List ℕ)) (stack : List ℕ) (x : ℕ) : Prop where
  nodup : stack.Nodup
  sorted : stack.Pairwise fun r r' => ∀ C D, At base comps r C → At base comps r' D → C <:+: D
  around : ∀ r ∈ stack, Encloses base comps x r

/-- Before `x` the components are entered that it does not head. -/
structure Awaits (base : ℕ) (comps : List (List ℕ)) (stack : List ℕ) (x : ℕ) : Prop
    extends StackAt base comps stack x where
  all : ∀ r C, At base comps r C → x ∈ C → r ∈ stack ∨ C.head? = some x

/-- At `x` all components around it are entered. -/
structure Entered (base : ℕ) (comps : List (List ℕ)) (stack : List ℕ) (x : ℕ) : Prop
    extends StackAt base comps stack x where
  all : ∀ r C, At base comps r C → x ∈ C → r ∈ stack

/-- While components are left that end with `x`, those left lie inside the others. -/
structure Leaving (base : ℕ) (comps : List (List ℕ)) (stack : List ℕ) (x : ℕ) : Prop
    extends StackAt base comps stack x where
  all : ∀ r C, At base comps r C → x ∈ C →
    r ∈ stack ∨ C.getLast? = some x ∧ ∀ r' ∈ stack, ∀ D, At base comps r' D → C <:+: D

theorem At.inj (h : At base comps r C) (h' : At base comps r D) : C = D := by
  obtain ⟨i, hi, rfl⟩ := h
  obtain ⟨j, hj, hij⟩ := h'
  have hij' : i = j := by omega
  subst hij'
  exact Option.some.inj (hi.symm.trans hj)

/-- Where no component starts with `x`, none is entered. -/
theorem Awaits.enter_none (h : Awaits base comps stack x)
    (hx : ∀ k, ¬HeadsAt base comps x k) : Entered base comps stack x := by
  refine ⟨h.toStackAt, fun r C hC hmem => (h.all r C hC hmem).resolve_right fun hhead => ?_⟩
  exact hx r (headsAt_iff.mpr ⟨C, hC, hhead⟩)

theorem Entered.leaving (h : Entered base comps stack x) : Leaving base comps stack x :=
  ⟨h.toStackAt, fun r C hC hx => .inl (h.all r C hC hx)⟩

/-- The component on top of the stack lies inside those under it. -/
theorem StackAt.top_inner {t : ℕ} (hs : StackAt base comps (t :: stack) x)
    (ht : At base comps t C) (hr : r ∈ t :: stack) (hD : At base comps r D) : C <:+: D := by
  rcases List.mem_cons.mp hr with rfl | hr
  · rw [ht.inj hD]
  · exact (List.pairwise_cons.mp hs.sorted).1 r hr C D ht hD

/-- The component on top is left. -/
theorem Leaving.pop {t : ℕ} (h : Leaving base comps (t :: stack) x) (ht : At base comps t C)
    (hend : C.getLast? = some x) : Leaving base comps stack x := by
  refine ⟨⟨(List.nodup_cons.mp h.nodup).2, (List.pairwise_cons.mp h.sorted).2, fun r hr =>
    h.around r (List.mem_cons_of_mem t hr)⟩, fun r D hD hx => ?_⟩
  rcases h.all r D hD hx with hr | hr
  · rcases List.mem_cons.mp hr with rfl | hr
    · rw [hD.inj ht]
      exact .inr ⟨hend, fun r' hr' D' hD' =>
        h.toStackAt.top_inner ht (List.mem_cons_of_mem r hr') hD'⟩
    · exact .inl hr
  · exact .inr ⟨hr.1, fun r' hr' => hr.2 r' (List.mem_cons_of_mem t hr')⟩

section Stacks

variable (ho : Order succ L comps)

include ho

theorem At.head_inj (h : At base comps r C) (h' : At base comps k D)
    (heq : C.head? = D.head?) : r = k := by
  obtain ⟨i, hi, rfl⟩ := h
  obtain ⟨j, hj, rfl⟩ := h'
  rw [ho.head_inj hi hj heq]

theorem At.comparable (h : At base comps r C) (h' : At base comps k D) (hC : x ∈ C) (hD : x ∈ D) :
    C <:+: D ∨ D <:+: C := by
  obtain ⟨i, hi, -⟩ := h
  obtain ⟨j, hj, -⟩ := h'
  exact ho.comparable hi hj hC hD

theorem At.nodup (h : At base comps r C) : C.Nodup :=
  ho.nodup.sublist (ho.stretch C h.mem).sublist

/-- A component that starts again is on the stack. -/
theorem Awaits.enter_same (h : Awaits base comps stack x) (hx : HeadsAt base comps x k)
    (hk : stack.head? = some k) : Entered base comps stack x := by
  obtain ⟨D, hD, hhead⟩ := headsAt_iff.mp hx
  refine ⟨h.toStackAt, fun r C hC hmem => ?_⟩
  rcases h.all r C hC hmem with hr | hr
  · exact hr
  · rw [hC.head_inj ho hD (hr.trans hhead.symm)]
    exact List.mem_of_mem_head? hk

/-- A component that starts with `x` and is not on top of the stack is not in it, and lies inside
those that are. -/
theorem Awaits.enter_push (h : Awaits base comps stack x) (hx : HeadsAt base comps x k)
    (hk : stack.head? ≠ some k) : Entered base comps (k :: stack) x := by
  obtain ⟨D, hD, hhead⟩ := headsAt_iff.mp hx
  have hxD : x ∈ D := List.mem_of_mem_head? hhead
  have hkmem : k ∉ stack := by
    intro hmem
    cases stack with
    | nil => cases hmem
    | cons t rest =>
      obtain ⟨C, hC, hxC⟩ := h.around t List.mem_cons_self
      have hin := h.toStackAt.top_inner hC hmem hD
      have hC' := head_of_inner (hD.nodup ho) hin hxC hhead
      exact hk (by rw [List.head?_cons, hC.head_inj ho hD (hC'.trans hhead.symm)])
  refine ⟨⟨List.nodup_cons.mpr ⟨hkmem, h.nodup⟩, List.pairwise_cons.mpr ⟨fun r hr D' C hD' hC => ?_,
    h.sorted⟩, fun r hr => ?_⟩, fun r C hC hmem => ?_⟩
  · rw [hD'.inj hD]
    obtain ⟨C', hC', hxC⟩ := h.around r hr
    rw [hC'.inj hC] at hxC
    rcases hD.comparable ho hC hxD hxC with hin | hin
    · exact hin
    · have hhead' := head_of_inner (hD.nodup ho) hin hxC hhead
      exact absurd (hC.head_inj ho hD (hhead'.trans hhead.symm) ▸ hr) hkmem
  · rcases List.mem_cons.mp hr with rfl | hr
    · exact ⟨D, hD, hxD⟩
    · exact h.around r hr
  · rcases h.all r C hC hmem with hr | hr
    · exact List.mem_cons_of_mem k hr
    · rw [hC.head_inj ho hD (hr.trans hhead.symm)]
      exact List.mem_cons_self

/-- To the next node, where no component of the stack ends. -/
theorem Leaving.next {p q : List ℕ} {y : ℕ} (h : Leaving base comps stack x)
    (hL : L = p ++ x :: y :: q)
    (ht : ∀ t, stack.head? = some t → ∀ C, At base comps t C → C.getLast? ≠ some x) :
    Awaits base comps stack y := by
  have hlast : ∀ r ∈ stack, ∀ C, At base comps r C → C.getLast? ≠ some x := by
    intro r hr C hC hend
    cases stack with
    | nil => cases hr
    | cons t rest =>
      obtain ⟨D, hD, hxD⟩ := h.around t List.mem_cons_self
      have hin := h.toStackAt.top_inner hD hr hC
      exact ht t rfl D hD (last_of_inner (hC.nodup ho) hin hxD hend)
  have hnext : ∀ r C, At base comps r C →
      (y ∈ C ↔ x ∈ C ∧ C.getLast? ≠ some x ∨ C.head? = some y) := fun r C hC => by
    have hn := ho.nodup
    have hin := ho.stretch C hC.mem
    rw [hL] at hn hin
    exact mem_next hn hin
  refine ⟨⟨h.nodup, h.sorted, fun r hr => ?_⟩, fun r C hC hy => ?_⟩
  · obtain ⟨C, hC, hx⟩ := h.around r hr
    exact ⟨C, hC, (hnext r C hC).mpr (.inl ⟨hx, hlast r hr C hC⟩)⟩
  · rcases (hnext r C hC).mp hy with ⟨hx, hend⟩ | hhead
    · exact .inl ((h.all r C hC hx).resolve_right fun hr => hend hr.1)
    · exact .inr hhead

/-- The component on top starts again. -/
theorem Leaving.restart {t y : ℕ} (h : Leaving base comps (t :: stack) x)
    (ht : At base comps t C) (hy : C.head? = some y) : Awaits base comps (t :: stack) y := by
  have hyC : y ∈ C := List.mem_of_mem_head? hy
  refine ⟨⟨h.nodup, h.sorted, fun r hr => ?_⟩, fun r D hD hyD => ?_⟩
  · obtain ⟨D, hD, -⟩ := h.around r hr
    exact ⟨D, hD, (h.toStackAt.top_inner ht hr hD).subset hyC⟩
  · rcases ht.comparable ho hD hyC hyD with hin | hin
    · obtain ⟨C', hC', hx⟩ := h.around t List.mem_cons_self
      rw [hC'.inj ht] at hx
      rcases h.all r D hD (hin.subset hx) with hr | hr
      · exact .inl hr
      · exact .inr (head_of_inner (ht.nodup ho) (hr.2 t List.mem_cons_self C ht) hyD hy)
    · exact .inr (head_of_inner (ht.nodup ho) hin hyD hy)

end Stacks

end OrderState

namespace SolveState

open OrderState

variable {V : Type} {succ : ℕ → List ℕ} {s : OrderState} {σ σ' : SolveState V} {w : Iteration V}
variable {base cs cc : ℕ} {max : ℤ} {L C stack : List ℕ} {comps : List (List ℕ)}

/-- Every component has its record, whether dirty or not. -/
def Recorded (base : ℕ) (comps : List (List ℕ)) (records : List Partition) : Prop :=
  ∀ r C, At base comps r C → ∃ p, records[r]? = some p ∧ Bounds p C

theorem Recorded.setDirty {records : List Partition} (h : Recorded base comps records) (i : ℕ)
    (dirty : Bool) : Recorded base comps (setDirty records i dirty) := by
  intro r C hC
  obtain ⟨p, hp, hb⟩ := h r C hC
  rw [SolveState.setDirty, List.getElem?_modify, hp]
  by_cases hi : i = r
  · exact ⟨{ p with isDirty := dirty }, by simp [hi], hb⟩
  · exact ⟨p, by simp [hi], hb⟩

theorem recorded_of_ordered (ho : Ordered succ base s L comps) :
    Recorded base comps s.recordStorage := by
  obtain ⟨old, recs, hrecs, rfl, hall⟩ := ho.records
  rintro r C ⟨j, hj, rfl⟩
  obtain ⟨hj', rfl⟩ := List.getElem?_eq_some_iff.mp hj
  have hlen : j < recs.length := by rw [hall.length_eq]; exact hj'
  refine ⟨recs[j], ?_, hall.get hlen hj'⟩
  rw [hrecs, List.getElem?_append_right (Nat.le_add_right _ _), Nat.add_sub_cancel_left,
    List.getElem?_eq_getElem hlen]

/-- Between two rounds of the loop: the components of the stack are those around the set that
comes next, but for one that it heads. -/
structure Rounds (base : ℕ) (L : List ℕ) (comps : List (List ℕ)) (σ : SolveState V) : Prop where
  recorded : Recorded base comps σ.recordStorage
  cur : σ.curComponent = σ.componentStack.head?
  listed : ∀ cs, σ.curSet = some cs → cs ∈ L ∧ Awaits base comps σ.componentStack cs

/-- `solve` starts with the first set and no component. -/
theorem rounds_start (ho : Ordered succ base s L comps) (values : V) :
    Rounds base L comps (start s values) := by
  refine ⟨recorded_of_ordered ho, rfl, fun cs hcs => ?_⟩
  have hstart : L.head? = some cs := by rw [← ho.follows.start]; exact hcs
  obtain ⟨l, rfl⟩ : ∃ l, L = cs :: l := by
    cases L with
    | nil => cases hstart
    | cons a l => exact ⟨l, by rw [Option.some.inj hstart]⟩
  refine ⟨List.mem_cons_self, ⟨.nil, .nil, by simp [start]⟩, fun r C hC hx => .inr ?_⟩
  exact (mem_first ho.nodup (ho.stretch C hC.mem)).mp hx

/-- At each set the components around it are entered. -/
theorem enterComponent_spec (ho : Ordered succ base s L comps) (w : Iteration V)
    (h : Rounds base L comps σ) (hcs : σ.curSet = some cs) :
    ∃ σ', enterComponent s w cs σ = some σ' ∧ Entered base comps σ'.componentStack cs ∧
      σ'.curComponent = σ'.componentStack.head? ∧ Recorded base comps σ'.recordStorage := by
  obtain ⟨hL, ha⟩ := h.listed cs hcs
  have hheads := ho.partHeads cs hL
  rw [enterComponent]
  cases hph : s.partHead cs with
  | none =>
    refine ⟨σ, rfl, ha.enter_none fun k hk => ?_, h.cur, h.recorded⟩
    rw [(hheads k).mpr hk] at hph
    cases hph
  | some ph =>
    have hhead := (hheads ph).mp hph
    by_cases hcur : σ.curComponent = some ph
    · refine ⟨σ, by simp [hcur], ?_, h.cur, h.recorded⟩
      exact ha.enter_same ho.toOrder hhead (by rw [← h.cur, hcur])
    · obtain ⟨C, hC, hx⟩ := headsAt_iff.mp hhead
      obtain ⟨p, hp, hb⟩ := h.recorded ph C hC
      have hstart : p.startNode = some cs := hb.1.trans hx
      refine ⟨_, by simp [hcur, hp, hstart]; rfl, ?_, rfl, h.recorded.setDirty ph false⟩
      exact ha.enter_push ho.toOrder hhead fun hk => hcur (by rw [h.cur, hk])

/-- To the next set of the list. -/
theorem rounds_next (ho : Ordered succ base s L comps) (hL : cs ∈ L)
    (hl : Leaving base comps stack cs)
    (ht : ∀ t, stack.head? = some t → ∀ C, At base comps t C → C.getLast? ≠ some cs)
    (hr : Recorded base comps σ.recordStorage) (hstack : σ.componentStack = stack)
    (hcur : σ.curComponent = stack.head?) (hset : σ.curSet = s.next cs) :
    Rounds base L comps σ := by
  refine ⟨hr, by rw [hstack]; exact hcur, fun y hy => ?_⟩
  obtain ⟨p, q, hpq⟩ := List.append_of_mem hL
  have hnext := ho.follows
  rw [hpq] at hnext
  have hq : q.head? = some y := by rw [← hnext.next_eq, ← hset, hy]
  obtain ⟨q, rfl⟩ : ∃ q', q = y :: q' := by
    cases q with
    | nil => cases hq
    | cons a q => exact ⟨q, by rw [Option.some.inj hq]⟩
  rw [hstack]
  exact ⟨by rw [hpq]; simp, hl.next ho.toOrder hpq ht⟩

/-- At the last set of a component the components that end there are left, up to a dirty one. -/
theorem leaveComponents_spec (ho : Ordered succ base s L comps) (hL : cs ∈ L)
    (hl : Leaving base comps (cc :: stack) cs) (hC : At base comps cc C)
    (hend : C.getLast? = some cs) (hr : Recorded base comps σ.recordStorage)
    (hcur : σ.curComponent = some cc) :
    ∃ σ', leaveComponents s cs cc (cc :: stack) σ = some σ' ∧ Rounds base L comps σ' := by
  induction stack generalizing cc C σ with
  | nil =>
    obtain ⟨p, hp, hb⟩ := hr cc C hC
    have hpop := hl.pop hC hend
    cases hd : p.isDirty with
    | true =>
      refine ⟨_, by simp [leaveComponents, hp, hd]; rfl, hr.setDirty cc false, hcur,
        fun y hy => ?_⟩
      have hy' : C.head? = some y := hb.1.symm.trans hy
      exact ⟨(ho.stretch C hC.mem).subset (List.mem_of_mem_head? hy'),
        hl.restart ho.toOrder hC hy'⟩
    | false =>
      refine ⟨_, by simp [leaveComponents, hp, hd]; rfl, ?_⟩
      exact rounds_next ho hL hpop (by simp) hr rfl rfl rfl
  | cons parent rest ih =>
    obtain ⟨p, hp, hb⟩ := hr cc C hC
    have hpop := hl.pop hC hend
    obtain ⟨D, hD, -⟩ := hl.around parent (by simp)
    obtain ⟨q, hq, hbq⟩ := hr parent D hD
    cases hd : p.isDirty with
    | true =>
      refine ⟨_, by simp [leaveComponents, hp, hd]; rfl,
        (hr.setDirty cc false).setDirty parent true, hcur, fun y hy => ?_⟩
      have hy' : C.head? = some y := hb.1.symm.trans hy
      exact ⟨(ho.stretch C hC.mem).subset (List.mem_of_mem_head? hy'),
        hl.restart ho.toOrder hC hy'⟩
    | false =>
      by_cases hstop : q.stopNode = some cs
      · have hr' : Recorded base comps { σ with curComponent := some parent }.recordStorage := hr
        obtain ⟨σ', heq, hrounds⟩ := ih hpop hD (hbq.2.symm.trans hstop) hr' rfl
        exact ⟨σ', by rw [← heq]; simp [leaveComponents, hp, hd, hq, hstop], hrounds⟩
      · refine ⟨_, by simp [leaveComponents, hp, hd, hq, hstop]; rfl, ?_⟩
        refine rounds_next ho hL hpop (fun t ht D' hD' hlast => ?_) hr rfl rfl rfl
        cases ht
        rw [hD'.inj hD] at hlast
        exact hstop (hbq.2.trans hlast)

/-- A round of the loop keeps the stack right, and does not panic. -/
theorem step_spec (ho : Ordered succ base s L comps) (w : Iteration V)
    (h : Rounds base L comps σ) (hcs : σ.curSet = some cs) (hmax : σ.numIterations + 1 ≤ max) :
    ∃ σ', step s w max σ = some σ' ∧ Rounds base L comps σ' := by
  have hL := (h.listed cs hcs).1
  have h₁ : Rounds base L comps { σ with numIterations := σ.numIterations + 1 } :=
    ⟨h.recorded, h.cur, h.listed⟩
  obtain ⟨σ₁, heq, he, hcur, hr⟩ := enterComponent_spec ho w h₁ hcs
  rw [hcs] at heq
  rw [step, hcs]
  simp only [Option.bind_eq_bind, Option.bind_some, if_neg (not_lt.mpr hmax), heq]
  cases hstack : σ₁.componentStack with
  | nil =>
    rw [hstack] at hcur he
    rw [hcur]
    refine ⟨_, rfl, rounds_next ho hL he.leaving (by simp) hr rfl rfl rfl⟩
  | cons cc rest =>
    rw [hstack] at hcur he
    obtain ⟨C, hC, -⟩ := he.around cc List.mem_cons_self
    set records := if (w.iterate cs σ₁.values).2 = true then setDirty σ₁.recordStorage cc true
      else σ₁.recordStorage with hrecords
    have hr' : Recorded base comps records := by
      rw [hrecords]
      split
      · exact hr.setDirty cc true
      · exact hr
    obtain ⟨p, hp, hb⟩ := hr' cc C hC
    simp only [hcur, List.head?_cons, ← hrecords, hp, Option.bind_some]
    by_cases hstop : p.stopNode = some cs
    · rw [if_pos hstop]
      exact leaveComponents_spec ho hL he.leaving hC (hb.2.symm.trans hstop) hr' rfl
    · rw [if_neg hstop]
      refine ⟨_, rfl, rounds_next ho hL he.leaving (fun t ht D hD hlast => ?_) hr' rfl rfl rfl⟩
      cases ht
      rw [hD.inj hC] at hlast
      exact hstop (hb.2.trans hlast)

/-- A state that the loop reaches. -/
def Reaches (s : OrderState) (w : Iteration V) (max : ℤ) (values : V) (σ : SolveState V) : Prop :=
  Relation.ReflTransGen (fun σ σ' => step s w max σ = some σ') (start s values) σ

theorem rounds_of_reaches (ho : Ordered succ base s L comps) {values : V}
    (h : Reaches s w max values σ) : Rounds base L comps σ := by
  induction h with
  | refl => exact rounds_start ho values
  | @tail σ σ' _ hstep ih =>
    cases hcs : σ.curSet with
    | none =>
      rw [step, hcs] at hstep
      cases hstep
    | some cs =>
      by_cases hmax : σ.numIterations + 1 ≤ max
      · obtain ⟨σ₂, heq, hr⟩ := step_spec ho w ih hcs hmax
        rw [heq] at hstep
        rw [← Option.some.inj hstep]
        exact hr
      · rw [step, hcs] at hstep
        simp only [Option.bind_eq_bind, Option.bind_some, if_pos (not_le.mp hmax)] at hstep
        cases hstep

end SolveState

namespace OrderState

/-- The order is a weak topological order of the nodes that the roots reach, it is found with a
bounded number of visits, and `solve` is always in the components around its current node. -/
theorem establishTopologicalOrder_weakOrder (d : DataFlow) (f : Funcdata) (s : OrderState)
    (hs : s.nodeStack = []) :
    ∃ s' L comps recs, establishTopologicalOrder d f s = some s' ∧
      -- following `next` from the first node lists every reachable node once
      Follows s'.next s'.orderPartition.startNode L ∧ L.Nodup ∧ (∀ x, x ∈ L ↔ d.Reachable f x) ∧
      s'.depthFirstIndex ≤ visitBound d ∧
      -- the components: nested stretches of the list, from their start to their stop
      s'.recordStorage = s.recordStorage ++ recs ∧ List.Forall₂ Bounds recs comps ∧
      (∀ C ∈ comps, C ≠ [] ∧ C <:+: L ∧ C.IsChain fun a b => s'.next a = some b) ∧
      comps.Pairwise Nested ∧
      -- the edges, and the cycles
      (∀ u ∈ L, ∀ v ∈ d.succ f u, ¬Before L u v → Back comps u v) ∧
      (∀ u ∈ L, ∀ c, (u :: c ++ [u]).IsChain (fun a b => b ∈ d.succ f a) →
        ∃ C ∈ comps, ∃ v ∈ u :: c, C.head? = some v) ∧
      -- the component stack of `solve`, at each node it comes to
      ∀ (V : Type) (w : Iteration V) (max : ℤ) (values : V) (σ : SolveState V),
        SolveState.Reaches s' w max values σ → ∀ cs, σ.curSet = some cs →
          ∃ σ', SolveState.enterComponent s' w cs σ = some σ' ∧ σ'.componentStack.Nodup ∧
            ∀ r, r ∈ σ'.componentStack ↔ Encloses s.recordStorage.length comps cs r := by
  obtain ⟨s', L, comps, heq, ho, ⟨recs, hrecs, hall⟩, hreach, hbound⟩ := exists_ordered d f hs
  have hclosed : ∀ ⦃u v⦄, v ∈ d.succ f u → u ∈ L → v ∈ L := by
    intro u v huv hu
    obtain ⟨r, hr, hru⟩ := (hreach u).mp hu
    exact (hreach v).mpr ⟨r, hr, hru.tail huv⟩
  refine ⟨s', L, comps, recs, heq, ho.follows, ho.nodup, hreach, hbound, hrecs, hall,
    fun C hC => ⟨ho.ne_nil C hC, ho.stretch C hC, ?_⟩, ho.nested,
    fun u hu v huv => (ho.edges u hu v huv).resolve_left, fun u hu c hc => ?_,
    fun V w max values σ hσ cs hcs => ?_⟩
  · obtain ⟨p, q, hpq⟩ := ho.stretch C hC
    have hchain := ho.follows.isChain
    rw [← hpq] at hchain
    exact hchain.left_of_append.right_of_append
  · apply ho.cycle_head _ hc
    intro v hv
    have hin := List.IsChain.induction (· ∈ L) _ hc hclosed fun _ => hu
    exact hin v (List.mem_append_left [u] hv)
  · obtain ⟨σ', heq', he, -⟩ :=
      SolveState.enterComponent_spec ho w (SolveState.rounds_of_reaches ho hσ) hcs
    refine ⟨σ', heq', he.nodup, fun r => ⟨he.around r, ?_⟩⟩
    rintro ⟨C, hC, hx⟩
    exact he.all r C hC hx

/-- Two value sets that are computed from each other, the first of them an input. -/
def loopFlow : DataFlow :=
  ((DataFlow.new.newValueSet 0).newValueSet 1).pushRoot ⟨0, by decide⟩

def loopGraph : Funcdata where
  spaces := SpaceManager.standard false
  vn v := { loc := default, size := 4, nzm := 0, descend := if v = 0 then [0] else [1] }
  numVarnodes := 2
  op o := { opcode := .copy, output := some (if o = 0 then 1 else 0) }
  numOps := 2
  blocks := []

/-- Both sets of a loop are in the order, and one of them heads a component. -/
theorem establishTopologicalOrder_weakOrder_loop :
    ∃ s' L, ∃ comps : List (List ℕ),
      establishTopologicalOrder loopFlow loopGraph {} = some s' ∧
      Follows s'.next s'.orderPartition.startNode L ∧ 0 ∈ L ∧ 1 ∈ L ∧
      ∃ C ∈ comps, ∃ v ∈ [0, 1], C.head? = some v ∧ C <:+: L := by
  obtain ⟨s', L, comps, recs, heq, hfollows, -, hreach, -, -, -, hcomps, -, -, hcycle, -⟩ :=
    establishTopologicalOrder_weakOrder loopFlow loopGraph {} rfl
  have h01 : 1 ∈ loopFlow.succ loopGraph 0 := by decide
  have h10 : 0 ∈ loopFlow.succ loopGraph 1 := by decide
  have h0 : 0 ∈ L := (hreach 0).mpr ⟨0, by decide, .refl⟩
  have h1 : 1 ∈ L := (hreach 1).mpr ⟨0, by decide, .single h01⟩
  obtain ⟨C, hC, v, hv, hhead⟩ := hcycle 0 h0 [1] (.cons_cons h01 (.cons_cons h10 (.singleton 0)))
  exact ⟨s', L, comps, heq, hfollows, h0, h1, C, hC, v, hv, hhead, (hcomps C hC).2.1⟩

end OrderState

end Mosura
