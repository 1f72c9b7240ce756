import Mosura.Lib.Dominance

/-! Dominators by climbing: a forest of parents that sweeps over a graph refine until each vertex
climbs through exactly its dominators. -/

namespace Climbs

open Paths

variable {V : Type*} {num : V → ℕ} {up : V → Option V} {root a b c g i w x y z : V}

/-- Climbing from `x` comes to `y`. -/
def Climb (up : V → Option V) : V → V → Prop := Relation.ReflTransGen fun x y => up x = some y

/-- Parents have smaller numbers and have parents themselves; the root is its own parent. -/
structure Forest (num : V → ℕ) (root : V) (up : V → Option V) : Prop where
  self : up root = some root
  climb : ∀ {x y}, up x = some y → x ≠ root → num y < num x ∧ (up y).isSome

theorem Climb.refl : Climb up x x := Relation.ReflTransGen.refl

theorem Climb.parent (h : up x = some y) : Climb up x y := .single h

theorem Climb.trans (h : Climb up x y) (h' : Climb up y z) : Climb up x z :=
  Relation.ReflTransGen.trans h h'

/-- What is met climbing from `x` is `x` itself, or met climbing from its parent. -/
theorem Climb.cases (h : Climb up x y) : y = x ∨ ∃ i, up x = some i ∧ Climb up i y := by
  rcases Relation.ReflTransGen.cases_head h with he | ⟨i, hi, hy⟩
  · exact .inl he.symm
  · exact .inr ⟨i, hi, hy⟩

theorem Climb.of_root (hF : Forest num root up) (h : Climb up root y) : y = root := by
  induction h with
  | refl => rfl
  | tail _ hs ih =>
    subst ih
    exact Option.some.inj (hs.symm.trans hF.self)

/-- Two vertices met on one climb are met one from the other. -/
theorem Climb.linear (h : Climb up x y) (h' : Climb up x z) : Climb up y z ∨ Climb up z y :=
  Relation.ReflTransGen.total_of_right_unique
    (fun _ _ _ h h' => Option.some.inj (h.symm.trans h')) h h'

theorem Climb.num_lt (hF : Forest num root up) (h : Climb up x y) (hne : y ≠ x) :
    num y < num x := by
  induction h with
  | refl => exact absurd rfl hne
  | @tail b c hb hs ih =>
    by_cases hr : b = root
    · subst hr
      obtain rfl := Option.some.inj (hs.symm.trans hF.self)
      exact ih hne
    · have hlt := (hF.climb hs hr).1
      by_cases hbx : b = x
      · exact hbx ▸ hlt
      · exact hlt.trans (ih hbx)

theorem Climb.num_le (hF : Forest num root up) (h : Climb up x y) : num y ≤ num x := by
  by_cases hne : y = x
  · exact hne ▸ le_rfl
  · exact (h.num_lt hF hne).le

/-- Of two vertices met on one climb the one with the smaller number is met from the other. -/
theorem Climb.from_higher (hF : Forest num root up) (h : Climb up x y) (h' : Climb up x z)
    (hle : num z ≤ num y) : Climb up y z := by
  rcases h.linear h' with hyz | hzy
  · exact hyz
  · by_cases hne : y = z
    · exact hne ▸ .refl
    · exact absurd (hzy.num_lt hF hne) (not_lt.mpr hle)

theorem Climb.isSome (hF : Forest num root up) (h : Climb up x y) (hx : (up x).isSome) :
    (up y).isSome := by
  cases h with
  | refl => exact hx
  | @tail b _ _ hs =>
    by_cases hr : b = root
    · subst hr
      obtain rfl := Option.some.inj (hs.symm.trans hF.self)
      rw [hs]
      rfl
    · exact (hF.climb hs hr).2

/-- Every climb ends at the root. -/
theorem Forest.climb_root (hF : Forest num root up) (hx : (up x).isSome) : Climb up x root := by
  induction hn : num x using Nat.strong_induction_on generalizing x with
  | h n ih =>
    by_cases hr : x = root
    · exact hr ▸ .refl
    · obtain ⟨i, hi⟩ := Option.isSome_iff_exists.mp hx
      obtain ⟨hlt, hi'⟩ := hF.climb hi hr
      exact (Climb.parent hi).trans (ih _ (hn ▸ hlt) hi' rfl)

/-! One parent replaced. -/

section Update

variable [DecidableEq V] (hF : Forest num root up) (hr : x ≠ root) (hz : num z < num x)

/-- The forest with `z` as the parent of `x`. -/
abbrev raise (up : V → Option V) (x z : V) : V → Option V := Function.update up x (some z)

include hF hr hz

theorem Forest.raise (hzs : (up z).isSome) : Forest num root (raise up x z) where
  self := by
    rw [Climbs.raise, Function.update_of_ne hr.symm]
    exact hF.self
  climb {a b} h ha := by
    have hsome : ∀ y, (up y).isSome → (Climbs.raise up x z y).isSome := by
      intro y hy
      by_cases hyx : y = x
      · rw [hyx, Climbs.raise, Function.update_self]
        rfl
      · rwa [Climbs.raise, Function.update_of_ne hyx]
    by_cases hax : a = x
    · rw [hax, Climbs.raise, Function.update_self] at h
      obtain rfl := Option.some.inj h
      exact ⟨hax ▸ hz, hsome _ hzs⟩
    · rw [Climbs.raise, Function.update_of_ne hax] at h
      exact (hF.climb h ha).imp_right (hsome _)

omit hF hr hz in
/-- Climbs that do not meet `x` stay as they are. -/
theorem climb_raise_of_not (h : ¬Climb up a x) : Climb (raise up x z) a y ↔ Climb up a y := by
  constructor
  · intro hy
    induction hy with
    | refl => exact .refl
    | @tail b c _ hs ih =>
      have hb : b ≠ x := fun hb => h (hb ▸ ih)
      rw [raise, Function.update_of_ne hb] at hs
      exact ih.tail hs
  · intro hy
    induction hy with
    | refl => exact .refl
    | @tail b c hb hs ih =>
      have hne : b ≠ x := fun he => h (he ▸ hb)
      refine ih.tail ?_
      rwa [raise, Function.update_of_ne hne]

omit hr hz in
theorem climb_raise_of_lt (h : num a < num x) : Climb (raise up x z) a y ↔ Climb up a y :=
  climb_raise_of_not fun hx => not_le.mpr h (hx.num_le hF)

omit hz in
/-- Climbs down to the number of `x` stay as they are. -/
theorem climb_raise_of_le (h : Climb up a y) (hle : num x ≤ num y) : Climb (raise up x z) a y := by
  induction h using Relation.ReflTransGen.head_induction_on with
  | refl => exact .refl
  | @head b c hs hc ih =>
    by_cases hb : b = x
    · have hlt := (hF.climb hs (hb ▸ hr)).1
      have := Climb.num_le hF hc
      rw [hb] at hlt
      omega
    · refine .head ?_ ih
      rwa [raise, Function.update_of_ne hb]

omit hF hr hz in
/-- Where `x` is raised to a vertex above its parent, nothing new is met on any climb. -/
theorem climb_of_raise (hi : up x = some i) (hiz : Climb up i z)
    (h : Climb (raise up x z) a y) : Climb up a y := by
  induction h with
  | refl => exact .refl
  | @tail b c _ hs ih =>
    by_cases hb : b = x
    · rw [hb, raise, Function.update_self] at hs
      obtain rfl := Option.some.inj hs
      exact (hb ▸ ih).trans ((Climb.parent hi).trans hiz)
    · rw [raise, Function.update_of_ne hb] at hs
      exact ih.tail hs

end Update

/-! Sweeps over the vertices of a graph in the order of their numbers. -/

variable {E : V → V → Prop} {S : Set V} {k : ℕ}

/-- A graph from `root` whose vertices are numbered so that each has an edge from a smaller one. -/
structure Numbered (E : V → V → Prop) (S : Set V) (root : V) (num : V → ℕ) : Prop where
  inj : ∀ x ∈ S, ∀ y ∈ S, num x = num y → x = y
  pred : ∀ {p x}, E p x → p ∈ S
  forward : ∀ x ∈ S, x ≠ root → ∃ g, E g x ∧ num g < num x
  root : root ∈ S

/-- `z` climbs through what all the vertices with an edge to `x` that have a parent climb through. -/
def Meet (E : V → V → Prop) (up : V → Option V) (x z : V) : Prop :=
  ∀ y, Climb up z y ↔ ∀ p, E p x → (up p).isSome → Climb up p y

/-- What holds when a sweep has come to the vertex numbered `k`. A dominator of a vertex dominates its
parent. A parent is met climbing from each smaller predecessor if the sweep has passed the vertex; if
it has not, this is so as far as the sweep has not passed the climb, and beyond the parent's number
those climbs meet nothing but what the parent's does. -/
structure Sweep (E : V → V → Prop) (S : Set V) (root : V) (num : V → ℕ) (k : ℕ)
    (up : V → Option V) : Prop where
  forest : Forest num root up
  mem : ∀ {w}, (up w).isSome → w ∈ S
  dominates : ∀ {w i d}, up w = some i → w ≠ root → Dominates E root d w → d ≠ w →
    Dominates E root d i
  common : ∀ {w i y}, up w = some i → w ≠ root → (∀ p, E p w → (up p).isSome → Climb up p y) →
    num y ≤ num i
  passed : ∀ {w i g}, up w = some i → w ≠ root → num w < k → E g w → num g < num w → Climb up g i
  ahead : ∀ {w i g v}, up w = some i → w ≠ root → k ≤ num w → E g w → num g < num w →
    Climb up i v → k ≤ num v → Climb up g v
  beyond : ∀ {w i g v}, up w = some i → w ≠ root → k ≤ num w → E g w → num g < num w →
    Climb up g v → num v ≤ num i → Climb up i v
  swept : ∀ w ∈ S, num w < k → (up w).isSome
  closed : ∀ {w g}, (up w).isSome → w ≠ root → E g w → num g < num w → (up g).isSome

variable (hN : Numbered E S root num)

/-- What dominates a vertex is met climbing from it. -/
theorem Sweep.climb_of_dominates (h : Sweep E S root num k up) (hx : (up x).isSome)
    (hd : Dominates E root y x) : Climb up x y := by
  induction hn : num x using Nat.strong_induction_on generalizing x with
  | h n ih =>
    by_cases hyx : y = x
    · exact hyx ▸ .refl
    · by_cases hr : x = root
      · subst hr
        exact absurd (List.mem_singleton.mp (hd _ (Path.single x))) hyx
      · obtain ⟨i, hi⟩ := Option.isSome_iff_exists.mp hx
        obtain ⟨hlt, hi'⟩ := h.forest.climb hi hr
        exact (Climb.parent hi).trans (ih _ (hn ▸ hlt) hi' (h.dominates hi hr hd hyx) rfl)

/-- A dominator of a vertex dominates what is met climbing from the vertex to it. -/
theorem Sweep.dominates_of_climb (h : Sweep E S root num k up) (hd : Dominates E root y x)
    (hz : Climb up x z) (hy : Climb up z y) : Dominates E root y z := by
  induction hz using Relation.ReflTransGen.head_induction_on with
  | refl => exact hd
  | @head a b hs hb ih =>
    by_cases hr : a = root
    · obtain rfl := Option.some.inj (hs.symm.trans (hr ▸ h.forest.self))
      exact ih (hr ▸ hd)
    · by_cases hya : y = a
      · -- the climb from `a` comes back to `a`, which has the greatest number on it
        have hlt := (h.forest.climb hs hr).1
        have hb := Climb.num_le h.forest hb
        have hy := hy.num_le h.forest
        rw [hya] at hy
        omega
      · exact ih (h.dominates hs hr hd hya)

section Step

include hN

/-- The sweep passes the root. -/
theorem Sweep.skip (h : Sweep E S root num k up) (hk : num root = k) :
    Sweep E S root num (k + 1) up where
  forest := h.forest
  mem := h.mem
  dominates := h.dominates
  common := h.common
  passed {w i g} hi hr hw hg hlt := by
    refine h.passed hi hr ?_ hg hlt
    have : num w ≠ k := fun he => hr (hN.inj w (h.mem (by rw [hi]; rfl)) root hN.root (he.trans hk.symm))
    omega
  ahead hi hr hw hg hlt hv hk := h.ahead hi hr (by omega) hg hlt hv (by omega)
  beyond hi hr hw hg hlt hv hk := h.beyond hi hr (by omega) hg hlt hv hk
  swept w hw hlt := by
    rcases Nat.lt_succ_iff_lt_or_eq.mp hlt with hlt | he
    · exact h.swept w hw hlt
    · rw [hN.inj w hw root hN.root (he.trans hk.symm), h.forest.self]
      rfl
  closed := h.closed

/-- The meet for the next vertex of a sweep has a smaller number, and is above the parent that the
vertex has. -/
theorem Sweep.meet_above (h : Sweep E S root num k up) (hx : x ∈ S) (hk : num x = k)
    (hr : x ≠ root) (hz : Meet E up x z) :
    num z < num x ∧ (up z).isSome ∧ ∀ i, up x = some i → Climb up i z := by
  obtain ⟨g, hg, hlt⟩ := hN.forward x hx hr
  have hgs := h.swept g (hN.pred hg) (hk ▸ hlt)
  have hgz : Climb up g z := (hz z).mp .refl g hg hgs
  refine ⟨(hgz.num_le h.forest).trans_lt hlt, hgz.isSome h.forest hgs, fun i hi => ?_⟩
  exact h.beyond hi hr hk.ge hg hlt hgz (h.common hi hr ((hz z).mp .refl))

/-- One step of a sweep: the next vertex gets its meet as parent. -/
theorem Sweep.step [DecidableEq V] (h : Sweep E S root num k up) (hx : x ∈ S) (hk : num x = k) (hr : x ≠ root)
    (hz : Meet E up x z) : Sweep E S root num (k + 1) (Climbs.raise up x z) := by
  obtain ⟨hzx, hzs, habove⟩ := h.meet_above hN hx hk hr hz
  have hF := h.forest
  have hself : Climbs.raise up x z x = some z := Function.update_self ..
  have hother : ∀ {w}, w ≠ x → Climbs.raise up x z w = up w := fun hw => Function.update_of_ne hw ..
  -- nothing new is met climbing from a vertex that had a parent
  have hsub : ∀ {a y}, (up a).isSome → Climb (Climbs.raise up x z) a y → Climb up a y := by
    intro a y ha hy
    cases hi : up x with
    | some i => exact climb_of_raise hi (habove i hi) hy
    | none =>
      refine (climb_raise_of_not fun hax => ?_).mp hy
      have := hax.isSome hF ha
      rw [hi] at this
      exact absurd this nofun
  have hlow : ∀ {a y}, num a < k → (Climb (Climbs.raise up x z) a y ↔ Climb up a y) :=
    fun ha => climb_raise_of_lt hF (hk ▸ ha)
  have hsome : ∀ {a}, (up a).isSome → (Climbs.raise up x z a).isSome := by
    intro a ha
    by_cases hax : a = x
    · rw [hax, hself]
      rfl
    · rwa [hother hax]
  have hne : ∀ {w}, k + 1 ≤ num w → w ≠ x := by
    rintro w hw rfl
    omega
  refine
    { forest := hF.raise hr hzx hzs
      mem := ?_, dominates := ?_, common := ?_, passed := ?_, ahead := ?_, beyond := ?_, swept := ?_
      closed := ?_ }
  · intro w hw
    by_cases hwx : w = x
    · exact hwx ▸ hx
    · rw [hother hwx] at hw
      exact h.mem hw
  · intro w i d hi hw hd hdw
    by_cases hwx : w = x
    · subst hwx
      obtain rfl := Option.some.inj (hself.symm.trans hi)
      -- a dominator of `w` dominates all its predecessors, and climbing from each is met
      have hpred : ∀ p, E p w → Dominates E root d p := fun p hp => hd.of_step hp hdw.symm
      have hzd : Climb up z d :=
        (hz d).mpr fun p hp hps => h.climb_of_dominates hps (hpred p hp)
      obtain ⟨g, hg, hlt⟩ := hN.forward w hx hr
      have hgs := h.swept g (hN.pred hg) (hk ▸ hlt)
      exact h.dominates_of_climb (hpred g hg) ((hz z).mp .refl g hg hgs) hzd
    · rw [hother hwx] at hi
      exact h.dominates hi hw hd hdw
  · intro w i y hi hw hy
    have hold : ∀ p, E p w → (up p).isSome → Climb up p y :=
      fun p hp hps => hsub hps (hy p hp (hsome hps))
    by_cases hwx : w = x
    · subst hwx
      obtain rfl := Option.some.inj (hself.symm.trans hi)
      exact ((hz y).mpr hold).num_le hF
    · rw [hother hwx] at hi
      exact h.common hi hw hold
  · intro w i g hi hw hwk hg hlt
    by_cases hwx : w = x
    · subst hwx
      obtain rfl := Option.some.inj (hself.symm.trans hi)
      exact (hlow (hk ▸ hlt)).mpr ((hz _).mp .refl g hg (h.swept g (hN.pred hg) (hk ▸ hlt)))
    · rw [hother hwx] at hi
      have hwS := h.mem (w := w) (by rw [hi]; rfl)
      have hwk' : num w < k := by
        have : num w ≠ k := fun he => hwx (hN.inj w hwS x hx (he.trans hk.symm))
        omega
      exact (hlow (by omega)).mpr (h.passed hi hw hwk' hg hlt)
  · intro w i g v hi hw hwk hg hlt hv hvk
    rw [hother (hne hwk)] at hi
    have his := (hF.climb hi hw).2
    exact climb_raise_of_le hF hr
      (h.ahead hi hw (by omega) hg hlt (hsub his hv) (by omega)) (by omega)
  · intro w i g v hi hw hwk hg hlt hv hvi
    rw [hother (hne hwk)] at hi
    have his := (hF.climb hi hw).2
    have hgs := h.closed (by rw [hi]; rfl) hw hg hlt
    have hiv := h.beyond hi hw (by omega) hg hlt (hsub hgs hv) hvi
    rcases Nat.lt_or_ge (num v) (num x) with hvx | hvx
    · by_cases hix : Climb up i x
      · -- the climbs from `g` and from the parent meet `x`, and go on from there alike
        have hgx := climb_raise_of_le hF hr (z := z)
          (h.ahead hi hw (by omega) hg hlt hix hk.ge) le_rfl
        exact (climb_raise_of_le hF hr hix le_rfl).trans
          (hgx.from_higher (hF.raise hr hzx hzs) hv hvx.le)
      · exact (climb_raise_of_not hix).mpr hiv
    · exact climb_raise_of_le hF hr hiv hvx
  · intro w hw hwk
    by_cases hwx : w = x
    · rw [hwx, hself]
      rfl
    · have : num w ≠ k := fun he => hwx (hN.inj w hw x hx (he.trans hk.symm))
      exact hsome (h.swept w hw (by omega))
  · intro w g hw hwr hg hlt
    by_cases hwx : w = x
    · subst hwx
      exact hsome (h.swept g (hN.pred hg) (hk ▸ hlt))
    · rw [hother hwx] at hw
      exact hsome (h.closed hw hwr hg hlt)

omit hN in
/-- A sweep that has passed all vertices is the start of the next one. -/
theorem Sweep.again (h : Sweep E S root num k up) (hk : ∀ w ∈ S, num w < k) :
    Sweep E S root num 0 up where
  forest := h.forest
  mem := h.mem
  dominates := h.dominates
  common := h.common
  passed _ _ hw := absurd hw (Nat.not_lt_zero _)
  ahead {w i g v} hi hr _ hg hlt hv _ :=
    (h.passed hi hr (hk w (h.mem (by rw [hi]; rfl))) hg hlt).trans hv
  beyond {w i g v} hi hr _ hg hlt hv hle :=
    (h.passed hi hr (hk w (h.mem (by rw [hi]; rfl))) hg hlt).from_higher h.forest hv hle
  swept _ _ hw := absurd hw (Nat.not_lt_zero _)
  closed := h.closed

/-- The first sweep starts from the root alone. -/
theorem Sweep.start [DecidableEq V] :
    Sweep E S root num 0 (Function.update (fun _ => none) root (some root)) := by
  have hroot : ∀ {w i}, Function.update (fun _ => none) root (some root) w = some i → w = root := by
    intro w i h
    by_contra hw
    rw [Function.update_of_ne hw] at h
    exact absurd h nofun
  exact
    { forest := ⟨Function.update_self .., fun h hr => absurd (hroot h) hr⟩
      mem := fun h => (hroot (Option.some_get h).symm) ▸ hN.root
      dominates := fun h hr => absurd (hroot h) hr
      common := fun h hr => absurd (hroot h) hr
      passed := fun h hr => absurd (hroot h) hr
      ahead := fun h hr => absurd (hroot h) hr
      beyond := fun h hr => absurd (hroot h) hr
      swept := fun _ _ hw => absurd hw (Nat.not_lt_zero _)
      closed := fun h hr => absurd (hroot (Option.some_get h).symm) hr }

/-- How far a vertex still is from the root. -/
def weight (num : V → ℕ) (n : ℕ) (up : V → Option V) (x : V) : ℕ := (up x).elim n num

/-- A step that changes a parent brings its vertex nearer to the root. -/
theorem Sweep.weight_lt [DecidableEq V] {n : ℕ} {T : Finset V} (h : Sweep E S root num k up)
    (hn : ∀ w ∈ S, num w < n) (hx : x ∈ S) (hk : num x = k) (hr : x ≠ root) (hz : Meet E up x z)
    (hT : x ∈ T) (hne : up x ≠ some z) :
    ∑ w ∈ T, weight num n (Climbs.raise up x z) w < ∑ w ∈ T, weight num n up w := by
  obtain ⟨hzx, hzs, habove⟩ := h.meet_above hN hx hk hr hz
  have hlt : weight num n (Climbs.raise up x z) x < weight num n up x := by
    unfold weight
    rw [Climbs.raise, Function.update_self]
    cases hi : up x with
    | none => exact hn z (h.mem hzs)
    | some i => exact (habove i hi).num_lt h.forest fun he => hne (he ▸ hi)
  refine Finset.sum_lt_sum (fun w _ => ?_) ⟨x, hT, hlt⟩
  by_cases hw : w = x
  · exact hw ▸ hlt.le
  · unfold weight
    rw [Climbs.raise, Function.update_of_ne hw]

end Step

/-! The result. -/

/-- `d` dominates `x`, and every other vertex that dominates `x` dominates `d`. -/
def ImmDominates (E : V → V → Prop) (root d x : V) : Prop :=
  Dominates E root d x ∧ d ≠ x ∧ ∀ c, Dominates E root c x → c ≠ x → Dominates E root c d

theorem ImmDominates.unique {d d' : V} (hr : Relation.ReflTransGen E root x)
    (h : ImmDominates E root d x) (h' : ImmDominates E root d' x) : d = d' := by
  obtain ⟨l, hl⟩ := exists_path hr
  obtain ⟨m, hm, -⟩ := hl.upTo (h'.1 l hl)
  exact (h'.2.2 d h.1 h.2.1).antisymm hm.reaches (h.2.2 d' h'.1 h'.2.1)

/-- Where no sweep changes anything any more. -/
structure Settled (E : V → V → Prop) (S : Set V) (root : V) (up : V → Option V) : Prop where
  all : ∀ x ∈ S, (up x).isSome
  meet : ∀ x ∈ S, x ≠ root → ∀ z, up x = some z → Meet E up x z

variable {d : V} {l : List V}

include hN in
theorem Settled.mem_path (hs : Settled E S root up) (hF : Forest num root up) (h : Path E a x l)
    (hx : x ∈ S) (hd : Climb up x d) : d ∈ l ∨ Climb up a d := by
  induction h with
  | single => exact .inr hd
  | @cons a b c l hab hp ih =>
    rcases ih hx hd with hl | hbd
    · exact .inl (List.mem_cons_of_mem _ hl)
    by_cases hdb : d = b
    · exact .inl (List.mem_cons_of_mem _ (hdb ▸ hp.head_mem))
    by_cases hbr : b = root
    · exact absurd ((hbr ▸ hbd).of_root hF) (hbr ▸ hdb)
    have hbS : b ∈ S := by
      cases hp with
      | single => exact hx
      | cons hbc _ => exact hN.pred hbc
    obtain ⟨z, hz, hzd⟩ := hbd.cases.resolve_left hdb
    exact .inr ((hs.meet b hbS hbr z hz d).mp hzd a hab (hs.all a (hN.pred hab)))

include hN in
/-- At the end each vertex climbs through its dominators. -/
theorem Settled.climb_iff (hs : Settled E S root up) (h : Sweep E S root num k up) (hx : x ∈ S) :
    Climb up x d ↔ Dominates E root d x := by
  constructor
  · intro hd l hl
    rcases hs.mem_path hN h.forest hl hx hd with hm | hrd
    · exact hm
    · exact hrd.of_root h.forest ▸ hl.head_mem
  · exact h.climb_of_dominates (hs.all x hx)

include hN in
/-- The parents are the immediate dominators. -/
theorem Settled.immDominates (hs : Settled E S root up) (h : Sweep E S root num k up) (hx : x ∈ S)
    (hr : x ≠ root) (hz : up x = some z) : ImmDominates E root z x := by
  refine ⟨(hs.climb_iff hN h hx).mp (.parent hz), ?_, fun c hc hcx => h.dominates hz hr hc hcx⟩
  rintro rfl
  exact lt_irrefl _ (h.forest.climb hz hr).1

end Climbs
