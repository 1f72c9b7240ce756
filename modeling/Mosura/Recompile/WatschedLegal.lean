import Mosura.Lib.ListSchedule
import Mosura.Recompile.Watsched

/-! The scheduler's order is complete and legal, and each pick is the best of those ready. -/

namespace Mosura
namespace Recompile
namespace Watsched

open ListSchedule

section Walk

variable (facts : List Facts)

/-- `i` comes later than `j` and is order-dependent on it. -/
def DependsOn (i j : ℕ) : Prop := j < i ∧ depends (fact facts i) (fact facts j) = true

/-- The priority of `b` over `c` above the atoms of `below`: less stall cost, then greater height,
then more stallable, then later. -/
def Outranks (below : List ℕ) (b c : ℕ) : Prop :=
  let cost k := stallCost (fact facts k) (below.map (fact facts))
  let height k := (heights facts).getD k 0
  let stallable k := (fact facts k).stallable
  cost b < cost c ∨ cost b = cost c ∧ (height c < height b ∨ height c = height b ∧
    (stallable c < stallable b ∨ stallable c = stallable b ∧ c < b))

variable {facts}

theorem mem_deps {i j : ℕ} : j ∈ deps facts i ↔ DependsOn facts i j := by
  unfold deps DependsOn
  rw [List.mem_filter, List.mem_range]

theorem nodup_deps (i : ℕ) : (deps facts i).Nodup := List.nodup_range.filter _

/-- The atoms not yet in `order` that depend on `j`. -/
def unplaced (facts : List Facts) (order : List ℕ) (j : ℕ) : Finset ℕ :=
  (Finset.range facts.length).filter fun i => i ∉ order ∧ j ∈ deps facts i

/-- The walk's vectors say what its order says. -/
structure Inv (facts : List Facts) (w : Walk) : Prop where
  built : Built facts.length (DependsOn facts) (Outranks facts) w.order
  placed_length : w.placed.length = facts.length
  placed : ∀ c < facts.length, w.placed.getD c true = decide (c ∈ w.order)
  succ_length : w.succ.length = facts.length
  succ : ∀ j < facts.length, w.succ.getD j 0 = (unplaced facts w.order j).card
  below : w.below = w.order.map (fact facts)

theorem length_foldl_modify (f : ℕ → ℕ) (js succ : List ℕ) :
    (js.foldl (fun succ j => succ.modify j f) succ).length = succ.length := by
  induction js generalizing succ with
  | nil => rfl
  | cons k js ih => rw [List.foldl_cons, ih, List.length_modify]

theorem getD_foldl_modify (f : ℕ → ℕ) (js succ : List ℕ) {j : ℕ} (hj : j < succ.length) :
    (js.foldl (fun succ j => succ.modify j f) succ).getD j 0 = f^[js.count j] (succ.getD j 0) := by
  induction js generalizing succ with
  | nil => rfl
  | cons k js ih =>
    rw [List.foldl_cons, ih _ (by rwa [List.length_modify])]
    by_cases hk : k = j
    · subst hk
      rw [List.count_cons_self, Function.iterate_succ_apply]
      simp [List.getD_eq_getElem?_getD, hj]
    · rw [List.count_cons_of_ne hk]
      simp [List.getD_eq_getElem?_getD, hk]

theorem iterate_pred (n a : ℕ) : (· - 1)^[n] a = a - n := by
  induction n generalizing a with
  | zero => rfl
  | succ n ih => rw [Function.iterate_succ_apply, ih, Nat.sub_sub, Nat.add_comm]

theorem Inv.ready_iff {w : Walk} (h : Inv facts w) {c : ℕ} (hc : c < facts.length) :
    (w.placed.getD c true || w.succ.getD c 0 ≠ 0) = false ↔
      Ready facts.length (DependsOn facts) w.order c := by
  have hfree : unplaced facts w.order c = ∅ ↔
      ∀ i < facts.length, DependsOn facts i c → i ∈ w.order := by
    simp only [unplaced, Finset.filter_eq_empty_iff, Finset.mem_range, not_and, mem_deps]
    exact forall₂_congr fun i _ => by tauto
  rw [h.placed c hc, h.succ c hc, Bool.or_eq_false_iff, decide_eq_false_iff_not,
    decide_eq_false_iff_not, not_not, Finset.card_eq_zero, hfree]
  exact ⟨fun hr => ⟨hc, hr.1, hr.2⟩, fun hr => ⟨hr.unplaced, hr.free⟩⟩

theorem Inv.place {w : Walk} (h : Inv facts w) {b : ℕ}
    (hready : Ready facts.length (DependsOn facts) w.order b)
    (hbest : ∀ c, Ready facts.length (DependsOn facts) w.order c → c ≠ b →
      Outranks facts w.order b c) : Inv facts (place facts w b) := by
  constructor
  · exact h.built.cons hready hbest
  · exact List.length_set.trans h.placed_length
  · intro c hc
    change (w.placed.set b true).getD c true = decide (c ∈ b :: w.order)
    have hplaced := h.placed c hc
    by_cases hcb : c = b
    · subst hcb
      simp [List.getD_eq_getElem?_getD, h.placed_length, hc]
    · rw [List.getD_eq_getElem?_getD, List.getElem?_set_ne (Ne.symm hcb),
        ← List.getD_eq_getElem?_getD, hplaced]
      simp [hcb]
  · exact (length_foldl_modify _ _ _).trans h.succ_length
  · intro j hj
    -- `b` leaves the unplaced dependents of what it depends on
    have herase : unplaced facts (b :: w.order) j = (unplaced facts w.order j).erase b := by
      ext i
      simp only [unplaced, Finset.mem_erase, Finset.mem_filter, List.mem_cons, not_or]
      tauto
    have hmem : b ∈ unplaced facts w.order j ↔ j ∈ deps facts b := by
      simp only [unplaced, Finset.mem_filter, Finset.mem_range]
      exact ⟨fun hb => hb.2.2, fun hb => ⟨hready.lt, hready.unplaced, hb⟩⟩
    change ((deps facts b).foldl (fun succ j => succ.modify j (· - 1)) w.succ).getD j 0 =
      (unplaced facts (b :: w.order) j).card
    rw [getD_foldl_modify _ _ _ (h.succ_length.symm ▸ hj), iterate_pred, h.succ j hj, herase,
      (nodup_deps b).count]
    split_ifs with hdep
    · rw [Finset.card_erase_of_mem (hmem.mpr hdep)]
    · rw [Finset.erase_eq_of_notMem fun hb => hdep (hmem.mp hb), Nat.sub_zero]
  · change fact facts b :: w.below = _
    rw [h.below]
    rfl

section Better

variable (height : List ℤ) (a b c : ℕ × ℤ)

theorem better_iff : better facts height a b = true ↔ a.2 < b.2 ∨ a.2 = b.2 ∧
    (height.getD b.1 0 < height.getD a.1 0 ∨ height.getD b.1 0 = height.getD a.1 0 ∧
      ((fact facts b.1).stallable < (fact facts a.1).stallable ∨
        (fact facts b.1).stallable = (fact facts a.1).stallable ∧ b.1 < a.1)) := by
  simp only [better, Bool.or_eq_true, Bool.and_eq_true, decide_eq_true_eq]
  omega

theorem better_trans (hab : better facts height a b) (hbc : better facts height b c) :
    better facts height a c := by
  rw [better_iff] at *
  omega

theorem better_total (hne : a ≠ b) : better facts height a b ∨ better facts height b a := by
  rw [better_iff, better_iff]
  have hfield : a.1 ≠ b.1 ∨ a.2 ≠ b.2 := by
    by_contra hsame
    push Not at hsame
    exact hne (Prod.ext hsame.1 hsame.2)
  omega

end Better

/-- The loop over the atoms is the search for the best of those ready. -/
theorem pick_eq_best (height : List ℤ) (w : Walk) :
    pick facts height w = best (better facts height)
      (((List.range facts.length).filter fun c =>
        !(w.placed.getD c true || w.succ.getD c 0 ≠ 0)).map fun c =>
          (c, stallCost (fact facts c) w.below)) := by
  unfold pick best
  rw [List.foldl_map, List.foldl_filter]
  apply List.foldl_ext
  intro b c _
  cases w.placed.getD c true || decide (w.succ.getD c 0 ≠ 0)
  · cases b
    all_goals rfl
  · rfl

theorem Inv.pick {w : Walk} (h : Inv facts w) (hlen : w.order.length < facts.length) :
    ∃ b cost, pick facts (heights facts) w = some (b, cost) ∧
      Ready facts.length (DependsOn facts) w.order b ∧
      ∀ c, Ready facts.length (DependsOn facts) w.order c → c ≠ b → Outranks facts w.order b c := by
  set ready := ((List.range facts.length).filter fun c =>
    !(w.placed.getD c true || w.succ.getD c 0 ≠ 0)).map fun c =>
      (c, stallCost (fact facts c) w.below) with hdef
  have hmem (p : ℕ × ℤ) : p ∈ ready ↔ Ready facts.length (DependsOn facts) w.order p.1 ∧
      p.2 = stallCost (fact facts p.1) (w.order.map (fact facts)) := by
    rw [hdef, List.mem_map, h.below]
    constructor
    · rintro ⟨c, hc, rfl⟩
      obtain ⟨hlt, hr⟩ := List.mem_filter.mp hc
      exact ⟨(h.ready_iff (List.mem_range.mp hlt)).mp (by simpa using hr), rfl⟩
    · rintro ⟨hr, hcost⟩
      refine ⟨p.1, List.mem_filter.mpr ⟨List.mem_range.mpr hr.lt, ?_⟩, Prod.ext rfl hcost.symm⟩
      simpa using (h.ready_iff hr.lt).mpr hr
  have hin (c : ℕ) (hc : Ready facts.length (DependsOn facts) w.order c) :
      (c, stallCost (fact facts c) (w.order.map (fact facts))) ∈ ready := (hmem (c, _)).mpr ⟨hc, rfl⟩
  obtain ⟨c, hc⟩ := exists_ready (fun i j (hd : DependsOn facts i j) => hd.1) hlen
  obtain ⟨⟨b, cost⟩, hb, hbest, hall⟩ := best_spec ((@better_trans facts) (heights facts))
    (better_total (heights facts)) (List.ne_nil_of_mem (hin c hc))
  obtain ⟨hready, hcost⟩ := (hmem _).mp hb
  refine ⟨b, cost, (pick_eq_best _ w).trans hbest, hready, fun c hc hne => ?_⟩
  have hbetter := (better_iff _ _ _).mp (hall _ (hin c hc) fun heq => hne (congrArg Prod.fst heq))
  rw [hcost] at hbetter
  exact hbetter

/-- The walk never runs out of ready atoms. -/
theorem Inv.walk {w : Walk} (h : Inv facts w) (k : ℕ)
    (hlen : w.order.length + k = facts.length) :
    ∃ w', walk facts (heights facts) k w = some w' ∧ Inv facts w' ∧
      w'.order.length = facts.length := by
  induction k generalizing w with
  | zero => exact ⟨w, rfl, h, hlen⟩
  | succ k ih =>
    obtain ⟨b, cost, hpick, hready, hbest⟩ := h.pick (by omega)
    obtain ⟨w', hwalk, hinv, hlen'⟩ := ih (h.place hready hbest) (by
      change w.order.length + 1 + k = facts.length
      omega)
    refine ⟨w', ?_, hinv, hlen'⟩
    unfold Watsched.walk
    rw [hpick]
    exact hwalk

end Walk

/-! The kept atoms. -/

/-- What the scheduler promises of the answer for the kept atoms. -/
structure Legal (kept : List ℕ) (atoms : List Facts) (order : List ℕ) : Prop where
  /-- Each kept atom appears exactly once. -/
  perm : order.Perm kept
  nodup : order.Nodup
  /-- An atom comes after those it depends on. -/
  depends : ∀ i j, j < i → i < kept.length → depends (fact atoms i) (fact atoms j) = true →
    order.idxOf (kept.getD j 0) < order.idxOf (kept.getD i 0)
  /-- Each was the one of greatest priority among those ready when it was picked. -/
  picked : ∃ picks : List ℕ, order = picks.map (kept.getD · 0) ∧
    ∀ above b below, picks = above ++ b :: below →
      Ready kept.length (DependsOn atoms) below b ∧
      ∀ c, Ready kept.length (DependsOn atoms) below c → c ≠ b → Outranks atoms below b c

end Watsched
end Recompile
end Mosura
