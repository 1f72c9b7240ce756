import Mathlib.Data.List.Chain
import Mathlib.Data.List.Nodup
import Mathlib.Data.List.Infix
import Mathlib.Logic.Relation

/-! Weak topological orders: a list of nodes, cut into nested stretches, in which every edge goes
forward or back to the head of a stretch around it. -/

namespace WeakTopological

variable {α : Type*} {succ : α → List α} {next : α → Option α}
variable {L L' C D : List α} {comps comps' : List (List α)} {u v : α}

/-- Following `next` from `start` lists `L`, and ends there. -/
def Follows (next : α → Option α) : Option α → List α → Prop
  | start, [] => start = none
  | start, a :: l => start = some a ∧ Follows next (next a) l

theorem Follows.start {s : Option α} (h : Follows next s L) : s = L.head? := by
  cases L with
  | nil => exact h
  | cons a l => exact h.1

/-- Only the links of the listed nodes matter. -/
theorem Follows.congr {next' : α → Option α} {s : Option α} (h : Follows next s L)
    (hn : ∀ a ∈ L, next' a = next a) : Follows next' s L := by
  induction L generalizing s with
  | nil => exact h
  | cons a l ih =>
    refine ⟨h.1, ?_⟩
    rw [hn a List.mem_cons_self]
    exact ih h.2 fun b hb => hn b (List.mem_cons_of_mem a hb)

theorem Follows.isChain {s : Option α} (h : Follows next s L) :
    L.IsChain fun a b => next a = some b := by
  induction L generalizing s with
  | nil => exact .nil
  | cons a l ih =>
    cases l with
    | nil => exact .singleton a
    | cons b l => exact .cons_cons h.2.1 (ih h.2)

/-- What follows a listed node is the next of the list. -/
theorem Follows.next_eq {s : Option α} {p q : List α} (h : Follows next s (p ++ u :: q)) :
    next u = q.head? := by
  induction p generalizing s with
  | nil => exact h.2.start
  | cons a p ih => exact ih h.2

/-- Splicing one list in front of another at its last node. -/
theorem Follows.append {s t : Option α} {next' : α → Option α} {a : α} {p q : List α}
    (h : Follows next s (p ++ [a])) (hq : Follows next' t q) (ha : next' a = t)
    (hp : ∀ b ∈ p, next' b = next b) : Follows next' s (p ++ a :: q) := by
  induction p generalizing s with
  | nil => exact ⟨h.1, ha ▸ hq⟩
  | cons b p ih =>
    refine ⟨h.1, ?_⟩
    rw [hp b List.mem_cons_self]
    exact ih h.2 fun c hc => hp c (List.mem_cons_of_mem b hc)

/-- `u` stands before `v` in the list. -/
def Before (L : List α) (u v : α) : Prop := [u, v].Sublist L

theorem Before.mono (h : Before L u v) (hL : L.Sublist L') : Before L' u v := h.trans hL

theorem before_of_mem_append (hu : u ∈ L) (hv : v ∈ L') : Before (L ++ L') u v :=
  (List.singleton_sublist.mpr hu).append (List.singleton_sublist.mpr hv)

theorem before_cons (hv : v ∈ L) : Before (u :: L) u v :=
  (List.singleton_sublist.mpr hv).cons_cons u

theorem Before.of_cons {a : α} (h : Before (a :: L) u v) (hu : u ≠ a) : Before L u v := by
  cases h with
  | cons _ h => exact h
  | cons_cons _ _ => exact absurd rfl hu

/-- In a list without repetition the order has no cycle. -/
theorem not_before_self (h : L.Nodup) : ¬Before L u u := by
  intro hb
  have := h.sublist hb
  simp at this

theorem Before.trans {w : α} (hL : L.Nodup) (h : Before L u v) (h' : Before L v w) :
    Before L u w := by
  induction L with
  | nil => cases h
  | cons a L ih =>
    have ha := (List.nodup_cons.mp hL).1
    cases h with
    | cons _ h =>
      have hv : v ≠ a := fun hv => ha (hv ▸ h.subset (by simp))
      exact (ih (List.nodup_cons.mp hL).2 h (h'.of_cons hv)).cons a
    | cons_cons _ h =>
      have hv : v ∈ L := List.singleton_sublist.mp h
      have hne : v ≠ u := fun hv' => ha (hv' ▸ hv)
      exact before_cons ((h'.of_cons hne).subset (by simp))

/-- `v` heads a stretch that holds `u`. -/
def Back (comps : List (List α)) (u v : α) : Prop := ∃ C ∈ comps, C.head? = some v ∧ u ∈ C

theorem Back.mono (h : Back comps u v) (hc : comps ⊆ comps') : Back comps' u v := by
  obtain ⟨C, hC, hv, hu⟩ := h
  exact ⟨C, hc hC, hv, hu⟩

/-- Two stretches lie one inside the other, or apart. -/
def Nested (C D : List α) : Prop := C <:+: D ∨ D <:+: C ∨ C.Disjoint D

/-- Nested stretches of a list, each with a head of its own. -/
structure Components (L : List α) (comps : List (List α)) : Prop where
  ne_nil : ∀ C ∈ comps, C ≠ []
  stretch : ∀ C ∈ comps, C <:+: L
  nested : comps.Pairwise Nested
  heads : comps.Pairwise fun C D => C.head? ≠ D.head?

theorem components_nil : Components L [] :=
  ⟨by simp, by simp, List.Pairwise.nil, List.Pairwise.nil⟩

theorem Components.head_mem (h : Components L comps) (hC : C ∈ comps) (hv : C.head? = some v) :
    v ∈ L :=
  (h.stretch C hC).subset (List.mem_of_mem_head? hv)

/-- The stretches of two lists without a common node, one list after the other. -/
theorem Components.append (h : Components L comps) (h' : Components L' comps')
    (hd : L.Disjoint L') : Components (L' ++ L) (comps ++ comps') := by
  have hapart : ∀ C ∈ comps, ∀ D ∈ comps', C.Disjoint D := fun C hC D hD a ha hb =>
    hd ((h.stretch C hC).subset ha) ((h'.stretch D hD).subset hb)
  refine ⟨fun C hC => ?_, fun C hC => ?_, ?_, ?_⟩
  · exact (List.mem_append.mp hC).elim (h.ne_nil C) (h'.ne_nil C)
  · rcases List.mem_append.mp hC with hC | hC
    · exact List.infix_append_of_infix_right (h.stretch C hC)
    · exact List.infix_append_of_infix_left (h'.stretch C hC)
  · apply List.pairwise_append.mpr
    exact ⟨h.nested, h'.nested, fun C hC D hD => .inr (.inr (hapart C hC D hD))⟩
  · apply List.pairwise_append.mpr
    refine ⟨h.heads, h'.heads, fun C hC D hD heq => ?_⟩
    obtain ⟨a, l, rfl⟩ := List.exists_cons_of_ne_nil (h.ne_nil C hC)
    exact hapart _ hC D hD List.mem_cons_self (List.mem_of_mem_head? heq.symm)

/-- A new head makes a stretch of the whole list. -/
theorem Components.surround (h : Components L comps) (hu : u ∉ L) :
    Components (u :: L) (comps ++ [u :: L]) := by
  have hin : ∀ C ∈ comps, C <:+: u :: L := fun C hC => List.infix_cons (h.stretch C hC)
  refine ⟨fun C hC => ?_, fun C hC => ?_, ?_, ?_⟩
  · rcases List.mem_append.mp hC with hC | hC
    · exact h.ne_nil C hC
    · rw [List.mem_singleton.mp hC]
      exact List.cons_ne_nil u L
  · rcases List.mem_append.mp hC with hC | hC
    · exact hin C hC
    · rw [List.mem_singleton.mp hC]
  · apply List.pairwise_append.mpr
    refine ⟨h.nested, List.pairwise_singleton _ _, fun C hC D hD => .inl ?_⟩
    rw [List.mem_singleton.mp hD]
    exact hin C hC
  · apply List.pairwise_append.mpr
    refine ⟨h.heads, List.pairwise_singleton _ _, fun C hC D hD heq => hu ?_⟩
    rw [List.mem_singleton.mp hD] at heq
    exact h.head_mem hC heq

/-- The stretches by their places in the list: two with one head are one. -/
theorem Components.head_inj (h : Components L comps) {i j : ℕ} (hi : comps[i]? = some C)
    (hj : comps[j]? = some D) (heq : C.head? = D.head?) : i = j := by
  obtain ⟨hi', rfl⟩ := List.getElem?_eq_some_iff.mp hi
  obtain ⟨hj', rfl⟩ := List.getElem?_eq_some_iff.mp hj
  have hp := List.pairwise_iff_getElem.mp h.heads
  rcases Nat.lt_trichotomy i j with hlt | heq' | hlt
  · exact absurd heq (hp i j hi' hj' hlt)
  · exact heq'
  · exact absurd heq.symm (hp j i hj' hi' hlt)

/-- Two stretches around one node lie one inside the other. -/
theorem Components.comparable (h : Components L comps) {i j : ℕ} (hi : comps[i]? = some C)
    (hj : comps[j]? = some D) (hC : u ∈ C) (hD : u ∈ D) : C <:+: D ∨ D <:+: C := by
  obtain ⟨hi', rfl⟩ := List.getElem?_eq_some_iff.mp hi
  obtain ⟨hj', rfl⟩ := List.getElem?_eq_some_iff.mp hj
  have hp := List.pairwise_iff_getElem.mp h.nested
  rcases Nat.lt_trichotomy i j with hlt | rfl | hlt
  · rcases hp i j hi' hj' hlt with h | h | h
    · exact .inl h
    · exact .inr h
    · exact absurd hD (h hC)
  · exact .inl List.infix_rfl
  · rcases hp j i hj' hi' hlt with h | h | h
    · exact .inr h
    · exact .inl h
    · exact absurd hC (h hD)

/-- A node splits a list without repetition in one way. -/
theorem split_unique {p q p' q' : List α} (hn : (p ++ u :: q).Nodup)
    (h : p ++ u :: q = p' ++ u :: q') : p = p' ∧ q = q' := by
  have hp : u ∉ p := fun hu => (List.nodup_append.mp hn).2.2 u hu u List.mem_cons_self rfl
  have hq : u ∉ q := (List.nodup_cons.mp (List.nodup_append.mp hn).2.1).1
  obtain ⟨h1, -, h2⟩ := (List.append_cons_inj_of_notMem hp hq).mp h
  exact ⟨h1, h2⟩

/-- What stretches hold the first node: those it heads. -/
theorem mem_first (hn : (u :: L).Nodup) (hC : C <:+: u :: L) : u ∈ C ↔ C.head? = some u := by
  constructor
  · intro hu
    obtain ⟨c, d, rfl⟩ := List.append_of_mem hu
    obtain ⟨s, t, hst⟩ := hC
    have h : (s ++ c) ++ u :: (d ++ t) = [] ++ u :: L := by simpa using hst
    have hnil := (split_unique (by rw [h]; exact hn) h).1
    rw [(List.append_eq_nil_iff.mp hnil).2]
    rfl
  · exact fun h => List.mem_of_mem_head? h

/-- From a node to the next one the stretches that end there are left, and those that the next one
heads are entered. -/
theorem mem_next {p q : List α} (hn : (p ++ u :: v :: q).Nodup) (hC : C <:+: p ++ u :: v :: q) :
    v ∈ C ↔ u ∈ C ∧ C.getLast? ≠ some u ∨ C.head? = some v := by
  obtain ⟨s, t, hst⟩ := hC
  constructor
  · intro hv
    obtain ⟨c, d, rfl⟩ := List.append_of_mem hv
    have h : (s ++ c) ++ v :: (d ++ t) = (p ++ [u]) ++ v :: q := by simpa using hst
    have hsplit : s ++ c = p ++ [u] := (split_unique (by rw [h]; simpa using hn) h).1
    rcases List.eq_nil_or_concat c with rfl | ⟨c, w, rfl⟩
    · exact .inr rfl
    · -- the node before `v` in the stretch is the node before it in the list
      have hw : s ++ c ++ [w] = p ++ [u] := by simpa [List.concat_eq_append] using hsplit
      have hwu : w = u := (List.append_inj' hw rfl).2 |> List.singleton_inj.mp
      subst hwu
      refine .inl ⟨by simp, fun hlast => ?_⟩
      have hmem : w ∈ v :: d := by
        rw [List.getLast?_append_of_ne_nil _ (List.cons_ne_nil v d)] at hlast
        exact List.mem_of_mem_getLast? hlast
      have hd : (s ++ (c ++ [w]) ++ (v :: d) ++ t).Nodup := by
        rw [← hst] at hn
        simpa [List.concat_eq_append] using hn
      have := (List.nodup_append.mp (List.nodup_append.mp hd).1).2.2 w (by simp) w hmem
      exact this rfl
  · rintro (⟨hu, hlast⟩ | hhead)
    · obtain ⟨c, d, rfl⟩ := List.append_of_mem hu
      have h : (s ++ c) ++ u :: (d ++ t) = p ++ u :: (v :: q) := by simpa using hst
      have hd : d ++ t = v :: q := (split_unique (by rw [h]; exact hn) h).2
      cases d with
      | nil => exact absurd (by simp) hlast
      | cons w d =>
        have hw : w = v := (List.cons.inj hd).1
        simp [hw]
    · exact List.mem_of_mem_head? hhead

/-- A stretch inside another has its head only where the other has it too. -/
theorem head_of_inner (hn : D.Nodup) (hCD : C <:+: D) (hu : u ∈ C) (hD : D.head? = some u) :
    C.head? = some u := by
  obtain ⟨l, rfl⟩ : ∃ l, D = u :: l := by
    cases D with
    | nil => cases hD
    | cons a l => exact ⟨l, by rw [Option.some.inj hD]⟩
  exact (mem_first hn hCD).mp hu

/-- A stretch inside another ends where the other ends, if it comes so far. -/
theorem last_of_inner (hn : D.Nodup) (hCD : C <:+: D) (hu : u ∈ C) (hD : D.getLast? = some u) :
    C.getLast? = some u := by
  have hn' : D.reverse.Nodup := List.nodup_reverse.mpr hn
  have hhead : D.reverse.head? = some u := by rw [List.head?_reverse, hD]
  have := head_of_inner hn' hCD.reverse (List.mem_reverse.mpr hu) hhead
  rwa [List.head?_reverse] at this

/-- Every edge of the listed nodes goes forward, or back to the head of a stretch around it. -/
structure Order (succ : α → List α) (L : List α) (comps : List (List α)) : Prop
    extends Components L comps where
  nodup : L.Nodup
  edges : ∀ u ∈ L, ∀ v ∈ succ u, Before L u v ∨ Back comps u v

/-- Every cycle through the listed nodes passes the head of a stretch. -/
theorem Order.cycle_head {c : List α} (h : Order succ L comps) (hu : ∀ v ∈ u :: c, v ∈ L)
    (hc : (u :: c ++ [u]).IsChain fun a b => b ∈ succ a) :
    ∃ C ∈ comps, ∃ v ∈ u :: c, C.head? = some v := by
  by_contra hno
  push Not at hno
  -- without a head on it every edge of the cycle goes forward
  have hmem : ∀ v ∈ u :: c ++ [u], v ∈ u :: c := by
    intro v hv
    rcases List.mem_append.mp hv with hv | hv
    · exact hv
    · rw [List.mem_singleton.mp hv]
      exact List.mem_cons_self
  have hbefore : (u :: c ++ [u]).IsChain (Before L) := by
    refine List.IsChain.imp_of_mem_imp (fun a b ha hb hab => ?_) hc
    rcases h.edges a (hu a (hmem a ha)) b hab with hb' | ⟨C, hC, hhead, -⟩
    · exact hb'
    · exact absurd hhead (hno C hC b (hmem b hb))
  have : Trans (Before L) (Before L) (Before L) := ⟨fun h₁ h₂ => h₁.trans h.nodup h₂⟩
  have hpair := (List.isChain_iff_pairwise.mp hbefore)
  rw [List.cons_append] at hpair
  exact not_before_self h.nodup (List.rel_of_pairwise_cons hpair (by simp))

end WeakTopological
