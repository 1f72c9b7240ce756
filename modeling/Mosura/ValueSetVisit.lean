import Mosura.Lib.WeakOrder
import Mosura.ValueSetOrder
import Mathlib.Data.Finset.Card
import Mathlib.Tactic.Ring

/-! What `visit` does: the nodes it places, those it leaves on the stack, and the components. -/

namespace Mosura

open WeakTopological

namespace DataFlow

variable (d : DataFlow) (f : Funcdata)

/-- The successors of a vertex, all of them value sets. -/
def succ (vertex : ℕ) : List ℕ := (d.successors f vertex).getD []

theorem exists_mapM (l : List VarnodeId) (h : ∀ v ∈ l, ∃ i < d.valueNodes.length, d.vsOf v = some i) :
    ∃ r, l.mapM d.vsOf = some r ∧ ∀ i ∈ r, i < d.valueNodes.length := by
  induction l with
  | nil => exact ⟨[], rfl, by simp⟩
  | cons v l ih =>
    obtain ⟨i, hi, hv⟩ := h v List.mem_cons_self
    obtain ⟨r, hr, hlt⟩ := ih fun w hw => h w (List.mem_cons_of_mem v hw)
    refine ⟨i :: r, by simp [hv, hr], fun j hj => ?_⟩
    rcases List.mem_cons.mp hj with rfl | hj
    · exact hi
    · exact hlt j hj

theorem successors_spec (vertex : ℕ) :
    d.successors f vertex = some (d.succ f vertex) ∧
      ∀ i ∈ d.succ f vertex, i < d.valueNodes.length := by
  have h : ∃ r, d.successors f vertex = some r ∧ ∀ i ∈ r, i < d.valueNodes.length := by
    unfold successors
    split
    · exact ⟨d.rootNodes, rfl, d.roots⟩
    · apply d.exists_mapM
      intro v hv
      exact d.marked v (List.of_mem_filter hv)
  obtain ⟨r, hr, hlt⟩ := h
  have hsucc : d.succ f vertex = r := by rw [succ, hr]; rfl
  rw [hsucc]
  exact ⟨hr, hlt⟩

end DataFlow

namespace OrderState

variable {succ : ℕ → List ℕ} {n : ℕ} {s s' s'' : OrderState} {u v x y : ℕ}
variable {N N' T T' P : List ℕ} {comps comps' : List (List ℕ)} {part part' : Partition}
variable {h head : WithTop ℕ} {isLoop : Bool}

/-- The nodes on the stack are those with a depth-first number, the last one has the highest, and
no node that is to be placed is the head of a component. -/
structure Numbered (s : OrderState) : Prop where
  onStack : ∀ x, x ∈ s.nodeStack ↔ s.count x ≠ 0 ∧ s.count x ≠ ⊤
  sorted : s.nodeStack.Pairwise fun a b => s.count b < s.count a
  bound : ∀ x ∈ s.nodeStack, s.count x ≤ (s.depthFirstIndex : ℕ)
  unheaded : ∀ x, s.count x ≠ ⊤ → s.partHead x = none

/-- The partition is the list `P`. -/
def Lists (s : OrderState) (part : Partition) (P : List ℕ) : Prop :=
  Follows s.next part.startNode P ∧ part.stopNode = P.getLast?

/-- The record of a component has its first and its last node. -/
def Bounds (p : Partition) (C : List ℕ) : Prop :=
  p.startNode = C.head? ∧ p.stopNode = C.getLast?

/-- The component recorded at `k` starts with `x`, where the records of `comps` start at `base`. -/
def HeadsAt (base : ℕ) (comps : List (List ℕ)) (x k : ℕ) : Prop :=
  ∃ j C, comps[j]? = some C ∧ C.head? = some x ∧ k = base + j

theorem headsAt_append {base k : ℕ} : HeadsAt base (comps ++ comps') x k ↔
    HeadsAt base comps x k ∨ HeadsAt (base + comps.length) comps' x k := by
  constructor
  · rintro ⟨j, C, hj, hx, rfl⟩
    by_cases hlt : j < comps.length
    · exact .inl ⟨j, C, by rw [← hj, List.getElem?_append_left hlt], hx, rfl⟩
    · rw [List.getElem?_append_right (Nat.le_of_not_lt hlt)] at hj
      exact .inr ⟨j - comps.length, C, hj, hx, by omega⟩
  · rintro (⟨j, C, hj, hx, rfl⟩ | ⟨j, C, hj, hx, rfl⟩)
    · have hlt := (List.getElem?_eq_some_iff.mp hj).1
      exact ⟨j, C, by rw [List.getElem?_append_left hlt, hj], hx, rfl⟩
    · refine ⟨comps.length + j, C, ?_, hx, by omega⟩
      rw [List.getElem?_append_right (Nat.le_add_right _ _), Nat.add_sub_cancel_left, hj]

/-- A component that starts with `x` has it among its nodes. -/
theorem HeadsAt.mem {base k : ℕ} (h : HeadsAt base comps x k) (hc : Components N comps) : x ∈ N := by
  obtain ⟨j, C, hj, hx, -⟩ := h
  exact hc.head_mem (List.mem_of_getElem? hj) hx

theorem headsAt_surround {base k : ℕ} : HeadsAt base (comps ++ [u :: N]) x k ↔
    HeadsAt base comps x k ∨ u = x ∧ k = base + comps.length := by
  rw [headsAt_append]
  apply or_congr_right
  constructor
  · rintro ⟨j, C, hj, hx, rfl⟩
    obtain ⟨hj', rfl⟩ := List.getElem?_eq_some_iff.mp hj
    have hj0 : j = 0 := by simpa using hj'
    subst hj0
    exact ⟨Option.some.inj hx, rfl⟩
  · rintro ⟨rfl, rfl⟩
    exact ⟨0, u :: N, rfl, rfl, rfl⟩

/-- What any stretch of the search does: it places the nodes `N`, with the components `comps`, and
leaves the nodes `T` on the stack. -/
structure Pass (succ : ℕ → List ℕ) (s s' : OrderState) (N T : List ℕ)
    (comps : List (List ℕ)) : Prop where
  numbered : Numbered s'
  fresh : ∀ x, x ∈ N ∨ x ∈ T → s.count x = 0
  nodup : N.Nodup
  stack : s'.nodeStack = T ++ s.nodeStack
  placed : ∀ x ∈ N, s'.count x = ⊤
  count : ∀ x, x ∉ N → x ∉ T → s'.count x = s.count x
  next : ∀ x, x ∉ N → s'.next x = s.next x
  partHead : ∀ x, x ∉ N → s'.partHead x = s.partHead x
  closed : ∀ x, x ∈ N ∨ x ∈ T → ∀ y ∈ succ x, s'.count y ≠ 0
  edges : ∀ x ∈ N, ∀ y ∈ succ x, s.count y = ⊤ ∨ Before N x y ∨ Back comps x y
  components : Components N comps
  records : ∃ recs, s'.recordStorage = s.recordStorage ++ recs ∧ List.Forall₂ Bounds recs comps
  heads : ∀ x ∈ N, ∀ k, s'.partHead x = some k ↔ HeadsAt s.recordStorage.length comps x k

namespace Pass

theorem refl (hs : Numbered s) : Pass succ s s [] [] [] where
  numbered := hs
  fresh := by simp
  nodup := List.nodup_nil
  stack := rfl
  placed := by simp
  count _ _ _ := rfl
  next _ _ := rfl
  partHead _ _ := rfl
  closed := by simp
  edges := by simp
  components := components_nil
  records := ⟨[], by simp, .nil⟩
  heads := by simp

/-- A node with a number or a place keeps it. -/
theorem stays (hp : Pass succ s s' N T comps) (hx : s.count x ≠ 0) : s'.count x = s.count x :=
  hp.count x (fun hN => hx (hp.fresh x (.inl hN))) fun hT => hx (hp.fresh x (.inr hT))

theorem onStack (hp : Pass succ s s' N T comps) (hx : x ∈ T) :
    s'.count x ≠ 0 ∧ s'.count x ≠ ⊤ := by
  apply (hp.numbered.onStack x).mp
  rw [hp.stack]
  exact List.mem_append_left _ hx

/-- What is to be visited after the pass was to be visited before it. -/
theorem white (hp : Pass succ s s' N T comps) (hx : s'.count x = 0) :
    x ∉ N ∧ x ∉ T ∧ s.count x = 0 := by
  have hN : x ∉ N := fun hN => by rw [hp.placed x hN] at hx; cases hx
  have hT : x ∉ T := fun hT => (hp.onStack hT).1 hx
  exact ⟨hN, hT, by rw [← hp.count x hN hT, hx]⟩

theorem seen (hp : Pass succ s s' N T comps) (hx : s.count x ≠ 0) : s'.count x ≠ 0 := by
  rw [hp.stays hx]
  exact hx

/-- With the nodes of the pass in front, a list of placed nodes is one still. -/
theorem placed_append (hp : Pass succ s s' N T comps) (hP : ∀ x ∈ P, s.count x = ⊤) :
    ∀ x ∈ N ++ P, s'.count x = ⊤ := by
  intro x hx
  rcases List.mem_append.mp hx with hx | hx
  · exact hp.placed x hx
  · rw [hp.stays (by rw [hP x hx]; exact WithTop.top_ne_zero), hP x hx]

/-- A node of the old stack has a lower number than one that the pass put above it. -/
theorem below (hp : Pass succ s s' N T comps) (hx : x ∈ T) (hy : y ∈ s.nodeStack) :
    s'.count y < s'.count x := by
  have hsorted := hp.numbered.sorted
  rw [hp.stack] at hsorted
  exact (List.pairwise_append.mp hsorted).2.2 x hx y hy

theorem length_records (hp : Pass succ s s' N T comps) :
    s'.recordStorage.length = s.recordStorage.length + comps.length := by
  obtain ⟨recs, hrecs, hall⟩ := hp.records
  rw [hrecs, List.length_append, hall.length_eq]

theorem trans (hp : Pass succ s s' N T comps) (hq : Pass succ s' s'' N' T' comps') :
    Pass succ s s'' (N' ++ N) (T' ++ T) (comps ++ comps') := by
  have hfresh : ∀ x, x ∈ N' ∨ x ∈ T' → x ∉ N ∧ x ∉ T ∧ s.count x = 0 :=
    fun x hx => hp.white (hq.fresh x hx)
  have hdisj : N'.Disjoint N := fun x hx hx' => (hfresh x (.inl hx)).1 hx'
  refine ⟨hq.numbered, fun x hx => ?_, ?_, ?_, fun x hx => ?_, fun x hN hT => ?_, fun x hN => ?_,
    fun x hN => ?_, fun x hx y hy => ?_, fun x hx y hy => ?_, ?_, ?_, fun x hx k => ?_⟩
  · simp only [List.mem_append] at hx
    rcases hx with (hx | hx) | (hx | hx)
    · exact (hfresh x (.inl hx)).2.2
    · exact hp.fresh x (.inl hx)
    · exact (hfresh x (.inr hx)).2.2
    · exact hp.fresh x (.inr hx)
  · exact List.nodup_append'.mpr ⟨hq.nodup, hp.nodup, hdisj⟩
  · rw [hq.stack, hp.stack, List.append_assoc]
  · rcases List.mem_append.mp hx with hx | hx
    · exact hq.placed x hx
    · rw [hq.stays (by rw [hp.placed x hx]; exact WithTop.top_ne_zero), hp.placed x hx]
  · simp only [List.mem_append, not_or] at hN hT
    rw [hq.count x hN.1 hT.1, hp.count x hN.2 hT.2]
  · simp only [List.mem_append, not_or] at hN
    rw [hq.next x hN.1, hp.next x hN.2]
  · simp only [List.mem_append, not_or] at hN
    rw [hq.partHead x hN.1, hp.partHead x hN.2]
  · simp only [List.mem_append] at hx
    rcases hx with (hx | hx) | (hx | hx)
    · exact hq.closed x (.inl hx) y hy
    · exact hq.seen (hp.closed x (.inl hx) y hy)
    · exact hq.closed x (.inr hx) y hy
    · exact hq.seen (hp.closed x (.inr hx) y hy)
  · rcases List.mem_append.mp hx with hx | hx
    · -- an edge of a later node comes to an earlier one, or stays among the later ones
      rcases hq.edges x hx y hy with htop | hb | hb
      · by_cases hyN : y ∈ N
        · exact .inr (.inl (before_of_mem_append hx hyN))
        · by_cases hyT : y ∈ T
          · exact absurd htop (hp.onStack hyT).2
          · exact .inl (by rw [← hp.count y hyN hyT, htop])
      · exact .inr (.inl (hb.mono (List.sublist_append_left N' N)))
      · exact .inr (.inr (hb.mono (List.subset_append_right comps comps')))
    · rcases hp.edges x hx y hy with htop | hb | hb
      · exact .inl htop
      · exact .inr (.inl (hb.mono (List.sublist_append_right N' N)))
      · exact .inr (.inr (hb.mono (List.subset_append_left comps comps')))
  · exact hp.components.append hq.components hdisj.symm
  · obtain ⟨r, hr, hall⟩ := hp.records
    obtain ⟨r', hr', hall'⟩ := hq.records
    exact ⟨r ++ r', by rw [hr', hr, List.append_assoc], List.rel_append hall hall'⟩
  · have hlen := hp.length_records
    rw [headsAt_append, ← hlen]
    rcases List.mem_append.mp hx with hx | hx
    · rw [hq.heads x hx]
      exact ⟨.inr, fun h => h.resolve_left fun h => hdisj hx (h.mem hp.components)⟩
    · have hx' : x ∉ N' := fun hx' => hdisj hx' hx
      rw [hq.partHead x hx', hp.heads x hx]
      exact ⟨.inl, fun h => h.resolve_right fun h => hx' (h.mem hq.components)⟩

end Pass

/-- One successor `c` of `u` is looked at: visited, or read off if it has a number. The lowest
number it came to is `min`. -/
structure Came (succ : ℕ → List ℕ) (u c : ℕ) (s s' : OrderState) (N T : List ℕ)
    (comps : List (List ℕ)) (min : WithTop ℕ) : Prop extends Pass succ s s' N T comps where
  back : ∀ y ∈ s.nodeStack, min ≤ s.count y →
    ∃ t, (t = u ∨ t ∈ T) ∧ ∃ z ∈ succ t, z ∈ s.nodeStack ∧ s.count z = min
  left : T ≠ [] → ∃ z ∈ s.nodeStack, s.count z = min
  low : ∀ t ∈ T, ∀ y ∈ succ t, y ∈ s.nodeStack → min ≤ s.count y
  lowTarget : c ∈ s.nodeStack → min ≤ s.count c
  seenTarget : s'.count c ≠ 0
  within : ∀ K : Set ℕ, (s.count c = 0 → c ∈ K) →
    (∀ k ∈ K, ∀ y ∈ succ k, s.count y = 0 → y ∈ K) → ∀ x, x ∈ N ∨ x ∈ T → x ∈ K

/-- One visit of `v`: if nothing stays on the stack, `v` is placed first, and its own number is
returned; otherwise `v` stays there with the lowest number that its nodes came to. -/
structure Visited (succ : ℕ → List ℕ) (v : ℕ) (s s' : OrderState) (N T : List ℕ)
    (comps : List (List ℕ)) (h : WithTop ℕ) : Prop extends Pass succ s s' N T comps where
  reached : v ∈ N ∨ v ∈ T
  within : ∀ K : Set ℕ, v ∈ K → (∀ k ∈ K, ∀ y ∈ succ k, s.count y = 0 → y ∈ K) →
    ∀ x, x ∈ N ∨ x ∈ T → x ∈ K
  done : T = [] → N.head? = some v ∧ h = (s.depthFirstIndex + 1 : ℕ)
  back : T ≠ [] → ∃ t ∈ T, ∃ y ∈ succ t, y ∈ s.nodeStack ∧ s.count y = h
  low : ∀ t ∈ T, ∀ y ∈ succ t, y ∈ s.nodeStack → h ≤ s.count y
  headed : ∀ C ∈ comps, C.head? = some v → ∃ x, v ∈ succ x

/-- A successor with a number is read off. -/
theorem came_of_edge {c : ℕ} (hs : Numbered s) (hc : s.count c ≠ 0) (hcu : c ∈ succ u) :
    Came succ u c s s [] [] [] (s.count c) where
  toPass := .refl hs
  back y hy hle := by
    have htop : s.count c ≠ ⊤ := by
      intro htop
      rw [htop, top_le_iff] at hle
      exact ((hs.onStack y).mp hy).2 hle
    exact ⟨u, .inl rfl, c, hcu, (hs.onStack c).mpr ⟨hc, htop⟩, rfl⟩
  left h := absurd rfl h
  low := by simp
  lowTarget _ := le_rfl
  seenTarget := hc
  within := by simp

/-- A successor without a number is visited. -/
theorem Visited.came {c : ℕ} (hv : Visited succ c s s' N T comps h) (hs : Numbered s)
    (hc : s.count c = 0) : Came succ u c s s' N T comps h where
  toPass := hv.toPass
  back y hy hle := by
    have hT : T ≠ [] := by
      intro hT
      rw [(hv.done hT).2] at hle
      have : s.depthFirstIndex + 1 ≤ s.depthFirstIndex := by
        exact_mod_cast hle.trans (hs.bound y hy)
      omega
    obtain ⟨t, ht, hz⟩ := hv.back hT
    exact ⟨t, .inr ht, hz⟩
  left hT := by
    obtain ⟨t, -, z, -, hz⟩ := hv.back hT
    exact ⟨z, hz⟩
  low := hv.low
  lowTarget hmem := absurd hc ((hs.onStack c).mp hmem).1
  seenTarget := by
    rcases hv.reached with hN | hT
    · rw [hv.placed c hN]
      exact WithTop.top_ne_zero
    · exact (hv.onStack hT).1
  within K hK := hv.within K (hK hc)

/-- The loop over the successors of `u`, which is on top of the stack of `s`, after those in
`done`. -/
structure Scanned (succ : ℕ → List ℕ) (u : ℕ) (s s' : OrderState) (N T : List ℕ)
    (comps : List (List ℕ)) (head : WithTop ℕ) (isLoop : Bool) (done : List ℕ) : Prop
    extends Pass succ s s' N T comps where
  quiet : isLoop = false → T = [] ∧ head = s.count u
  loop : isLoop = true →
    ∃ t, (t = u ∨ t ∈ T) ∧ ∃ y ∈ succ t, y ∈ s.nodeStack ∧ s.count y = head
  low : ∀ t ∈ T, ∀ y ∈ succ t, y ∈ s.nodeStack → head ≤ s.count y
  lowDone : ∀ y ∈ done, y ∈ s.nodeStack → head ≤ s.count y
  self : u ∈ done → isLoop = true
  seenDone : ∀ y ∈ done, s'.count y ≠ 0
  within : ∀ K : Set ℕ, (∀ y ∈ done, s.count y = 0 → y ∈ K) →
    (∀ k ∈ K, ∀ y ∈ succ k, s.count y = 0 → y ∈ K) → ∀ x, x ∈ N ∨ x ∈ T → x ∈ K

namespace Scanned

variable {done : List ℕ}

theorem refl (hs : Numbered s) : Scanned succ u s s [] [] [] (s.count u) false [] where
  toPass := .refl hs
  quiet _ := ⟨rfl, rfl⟩
  loop := by simp
  low := by simp
  lowDone := by simp
  self := by simp
  seenDone := by simp
  within := by simp

/-- The head is the number of a node of the old stack. -/
theorem head_mem (hc : Scanned succ u s s' N T comps head isLoop done) (hu : u ∈ s.nodeStack) :
    ∃ y ∈ s.nodeStack, s.count y = head := by
  cases isLoop with
  | false => exact ⟨u, hu, (hc.quiet rfl).2.symm⟩
  | true =>
    obtain ⟨-, -, y, -, hy⟩ := hc.loop rfl
    exact ⟨y, hy⟩

/-- One more successor: its lowest number counts where it is not above the one so far. -/
theorem step {c : ℕ} {min : WithTop ℕ} (hc : Scanned succ u s s' N T comps head isLoop done)
    (hs : Numbered s) (hu : u ∈ s.nodeStack) (htop : ∀ y ∈ s.nodeStack, s.count y ≤ s.count u)
    (hm : Came succ u c s' s'' N' T' comps' min) :
    Scanned succ u s s'' (N' ++ N) (T' ++ T) (comps ++ comps')
      (if min ≤ head then min else head) (if min ≤ head then true else isLoop) (c :: done) := by
  have hkeep : ∀ y ∈ s.nodeStack, s'.count y = s.count y := fun y hy =>
    hc.stays ((hs.onStack y).mp hy).1
  have hold : ∀ y ∈ s.nodeStack, y ∈ s'.nodeStack := fun y hy => by
    rw [hc.stack]
    exact List.mem_append_right T hy
  obtain ⟨y₀, hy₀, hhead⟩ := hc.head_mem hu
  have hlow : (if min ≤ head then min else head) ≤ head := by
    split
    · assumption
    · exact le_rfl
  have hlow' : (if min ≤ head then min else head) ≤ min := by
    split
    · exact le_rfl
    · exact (not_le.mp ‹_›).le
  refine ⟨hc.toPass.trans hm.toPass, fun hl => ?_, fun hl => ?_, fun t ht y hy hys => ?_,
    fun y hy hys => ?_, fun hself => ?_, fun y hy => ?_, fun K hK hcl x hx => ?_⟩
  · -- nothing came to the stack, so nothing stays on it
    by_cases hle : min ≤ head
    · rw [if_pos hle] at hl
      cases hl
    · rw [if_neg hle] at hl ⊢
      obtain ⟨hT, hq⟩ := hc.quiet hl
      have hT' : T' = [] := by
        by_contra hne
        obtain ⟨z, hz, hzm⟩ := hm.left hne
        rw [hc.stack, hT, List.nil_append] at hz
        rw [hkeep z hz] at hzm
        exact hle (by rw [← hzm, hq]; exact htop z hz)
      exact ⟨by rw [hT, hT']; rfl, hq⟩
  · by_cases hle : min ≤ head
    · rw [if_pos hle]
      have hle' : min ≤ s'.count y₀ := by rw [hkeep y₀ hy₀, hhead]; exact hle
      obtain ⟨t, ht, z, hz, hzs, hzm⟩ := hm.back y₀ (hold y₀ hy₀) hle'
      -- a number as low as `head` is not that of a node above `u`
      have hzold : z ∈ s.nodeStack := by
        rw [hc.stack] at hzs
        refine (List.mem_append.mp hzs).resolve_left fun hzT => ?_
        have hlt := hc.below hzT hy₀
        rw [hzm] at hlt
        exact absurd hle' (not_le.mpr hlt)
      refine ⟨t, ht.imp_right (List.mem_append_left T), z, hz, hzold, ?_⟩
      rw [← hkeep z hzold, hzm]
    · rw [if_neg hle] at hl ⊢
      obtain ⟨t, ht, hz⟩ := hc.loop hl
      exact ⟨t, ht.imp_right (List.mem_append_right T'), hz⟩
  · rcases List.mem_append.mp ht with ht | ht
    · rw [← hkeep y hys]
      exact hlow'.trans (hm.low t ht y hy (hold y hys))
    · exact hlow.trans (hc.low t ht y hy hys)
  · rcases List.mem_cons.mp hy with rfl | hy
    · rw [← hkeep y hys]
      exact hlow'.trans (hm.lowTarget (hold y hys))
    · exact hlow.trans (hc.lowDone y hy hys)
  · by_cases hle : min ≤ head
    · rw [if_pos hle]
    · rw [if_neg hle]
      rcases List.mem_cons.mp hself with rfl | hself
      · cases isLoop with
        | true => rfl
        | false =>
          have hmin := hm.lowTarget (hold u hu)
          rw [hkeep u hu, ← (hc.quiet rfl).2] at hmin
          exact absurd hmin hle
      · exact hc.self hself
  · rcases List.mem_cons.mp hy with rfl | hy
    · exact hm.seenTarget
    · exact hm.seen (hc.seenDone y hy)
  · have hin : ∀ x, x ∈ N ∨ x ∈ T → x ∈ K :=
      hc.within K (fun y hy => hK y (List.mem_cons_of_mem c hy)) hcl
    have hin' : ∀ x, x ∈ N' ∨ x ∈ T' → x ∈ K := by
      apply hm.within K
      · exact fun h0 => hK c List.mem_cons_self (hc.white h0).2.2
      · exact fun k hk y hy h0 => hcl k hk y hy (hc.white h0).2.2
    simp only [List.mem_append] at hx
    rcases hx with (hx | hx) | (hx | hx)
    · exact hin' x (.inl hx)
    · exact hin x (.inl hx)
    · exact hin' x (.inr hx)
    · exact hin x (.inr hx)

end Scanned

/-- The depth-first search ends: what a node costs while it is not placed, and while it is not
visited. -/
def work (n : ℕ) (s : OrderState) : ℕ :=
  ((Finset.range (n + 1)).filter (s.count · ≠ ⊤)).card * (n + 1) +
    ((Finset.range (n + 1)).filter (s.count · = 0)).card

theorem Pass.work_le (hp : Pass succ s s' N T comps) : work n s' ≤ work n s := by
  have htop : (Finset.range (n + 1)).filter (s'.count · ≠ ⊤) ⊆
      (Finset.range (n + 1)).filter (s.count · ≠ ⊤) := by
    intro x
    simp only [Finset.mem_filter]
    refine And.imp_right fun hx htop => hx ?_
    rw [hp.stays (by rw [htop]; exact WithTop.top_ne_zero), htop]
  have hzero : (Finset.range (n + 1)).filter (s'.count · = 0) ⊆
      (Finset.range (n + 1)).filter (s.count · = 0) := by
    intro x
    simp only [Finset.mem_filter]
    exact And.imp_right fun hx => (hp.white hx).2.2
  unfold work
  gcongr

/-- Placing a node is worth more than visiting all of them again. -/
theorem work_lt_of_placed (hu : u ≤ n) (hsu : s.count u ≠ ⊤) (hu' : s'.count u = ⊤)
    (hkeep : ∀ x, s.count x = ⊤ → s'.count x = ⊤) : work n s' < work n s := by
  have hmem : u ∈ Finset.range (n + 1) := Finset.mem_range.mpr (by omega)
  have htop : (Finset.range (n + 1)).filter (s'.count · ≠ ⊤) ⊂
      (Finset.range (n + 1)).filter (s.count · ≠ ⊤) := by
    apply Finset.ssubset_iff_of_subset ?_ |>.mpr
    · exact ⟨u, by simp [hsu]; omega, by simp [hu']⟩
    · intro x
      simp only [Finset.mem_filter]
      exact And.imp_right fun hx htop => hx (hkeep x htop)
  have hzero : ((Finset.range (n + 1)).filter (s'.count · = 0)).card < n + 1 := by
    have hsub : (Finset.range (n + 1)).filter (s'.count · = 0) ⊂ Finset.range (n + 1) := by
      apply Finset.filter_ssubset.mpr
      exact ⟨u, hmem, by rw [hu']; exact WithTop.top_ne_zero⟩
    simpa using Finset.card_lt_card hsub
  have hcard := Finset.card_lt_card htop
  unfold work
  calc _ < ((Finset.range (n + 1)).filter (s'.count · ≠ ⊤)).card * (n + 1) + (n + 1) := by omega
    _ = (((Finset.range (n + 1)).filter (s'.count · ≠ ⊤)).card + 1) * (n + 1) := by ring
    _ ≤ ((Finset.range (n + 1)).filter (s.count · ≠ ⊤)).card * (n + 1) :=
      Nat.mul_le_mul_right _ hcard
    _ ≤ _ := Nat.le_add_right _ _

theorem count_push : (s.push v).count x =
    if x = v then ((s.depthFirstIndex + 1 : ℕ) : WithTop ℕ) else s.count x := by
  simp only [push, Function.update_apply]

theorem work_push (hv : v ≤ n) (hsv : s.count v = 0) : work n (s.push v) < work n s := by
  have htop : (Finset.range (n + 1)).filter ((s.push v).count · ≠ ⊤) ⊆
      (Finset.range (n + 1)).filter (s.count · ≠ ⊤) := by
    intro x
    simp only [Finset.mem_filter, count_push]
    refine And.imp_right fun hx => ?_
    by_cases hxv : x = v
    · rw [hxv, hsv]
      exact WithTop.zero_ne_top
    · rwa [if_neg hxv] at hx
  have hzero : (Finset.range (n + 1)).filter ((s.push v).count · = 0) ⊂
      (Finset.range (n + 1)).filter (s.count · = 0) := by
    apply Finset.ssubset_iff_of_subset ?_ |>.mpr
    · exact ⟨v, by simp [hsv]; omega, by simp [count_push]⟩
    · intro x
      simp only [Finset.mem_filter, count_push]
      refine And.imp_right fun hx => ?_
      by_cases hxv : x = v
      · rw [hxv, hsv]
      · rwa [if_neg hxv] at hx
  have := Finset.card_lt_card hzero
  have := Nat.mul_le_mul_right (n + 1) (Finset.card_le_card htop)
  unfold work
  omega

theorem Numbered.push (hs : Numbered s) (hv : s.count v = 0) : Numbered (s.push v) := by
  have hne : ∀ x ∈ s.nodeStack, x ≠ v := fun x hx hxv =>
    ((hs.onStack x).mp hx).1 (hxv ▸ hv)
  have hlt : ∀ x ∈ s.nodeStack, s.count x < ((s.depthFirstIndex + 1 : ℕ) : WithTop ℕ) :=
    fun x hx => (hs.bound x hx).trans_lt (by exact_mod_cast Nat.lt_succ_self _)
  have hcount : ∀ x ∈ s.nodeStack, (s.push v).count x = s.count x := fun x hx => by
    rw [count_push, if_neg (hne x hx)]
  refine ⟨fun x => ?_, ?_, fun x hx => ?_, fun x hx => ?_⟩
  · change x ∈ v :: s.nodeStack ↔ _
    rw [List.mem_cons, count_push, hs.onStack]
    by_cases hxv : x = v
    · simp [hxv]
    · simp [hxv]
  · apply List.pairwise_cons.mpr
    constructor
    · intro x hx
      rw [hcount x hx, count_push, if_pos rfl]
      exact hlt x hx
    · refine hs.sorted.imp_of_mem fun {a b} ha hb hab => ?_
      rw [hcount a ha, hcount b hb]
      exact hab
  · rcases List.mem_cons.mp hx with rfl | hx
    · rw [count_push, if_pos rfl]
      exact le_rfl
    · rw [hcount x hx]
      exact (hlt x hx).le
  · apply hs.unheaded
    by_cases hxv : x = v
    · rw [hxv, hv]
      exact WithTop.zero_ne_top
    · rwa [count_push, if_neg hxv] at hx

/-- Neither the visits nor what is left to do grows: each visit is paid for. -/
def Spends (n : ℕ) (s s' : OrderState) : Prop :=
  s'.depthFirstIndex + work n s' ≤ s.depthFirstIndex + work n s

/-- What holds of `visit` where at most `bound` is left to do. -/
def VisitSpec (succ : ℕ → List ℕ) (n : ℕ) (visit : Visit) (bound : ℕ) : Prop :=
  ∀ s v part P, Numbered s → s.count v = 0 → v ≤ n → work n s ≤ bound → Lists s part P →
    (∀ x ∈ P, s.count x = ⊤) →
    ∃ s' part' h N T comps, visit s v part = some (s', part', h) ∧
      Visited succ v s s' N T comps h ∧ Lists s' part' (N ++ P) ∧ Spends n s s'

variable {visit : Visit} {bound : ℕ}

theorem visitSuccs_cons {c : ℕ} {rest : List ℕ} {min : WithTop ℕ}
    (h : (if s.count c = 0 then visit s c part else some (s, part, s.count c)) =
      some (s', part', min)) :
    visitSuccs visit (c :: rest) s part head isLoop =
      visitSuccs visit rest s' part' (if min ≤ head then min else head)
        (if min ≤ head then true else isLoop) := by
  rw [visitSuccs]
  by_cases hc : s.count c = 0
  · rw [if_pos hc] at h ⊢
    rw [h]
    simp only [Option.bind_eq_bind, Option.bind_some]
    split <;> rfl
  · rw [if_neg hc] at h ⊢
    cases h
    simp only [Option.bind_eq_bind, Option.bind_some]
    split <;> rfl

theorem visitSuccs_spec (hv : VisitSpec succ n visit bound) (hs : Numbered s)
    (hu : u ∈ s.nodeStack) (htop : ∀ y ∈ s.nodeStack, s.count y ≤ s.count u)
    (hbound : work n s ≤ bound) (hP : ∀ x ∈ P, s.count x = ⊤) {rest done : List ℕ}
    (hrest : ∀ y ∈ rest, y ∈ succ u ∧ y ≤ n)
    (hc : Scanned succ u s s' N T comps head isLoop done) (hpart : Lists s' part (N ++ P))
    (hspend : Spends n s s') :
    ∃ s'' part' head' isLoop' N' T' comps' done',
      visitSuccs visit rest s' part head isLoop = some (s'', part', head', isLoop') ∧
      Scanned succ u s s'' N' T' comps' head' isLoop' done' ∧
      (∀ y, y ∈ done' ↔ y ∈ rest ∨ y ∈ done) ∧ Lists s'' part' (N' ++ P) ∧ Spends n s s'' := by
  induction rest generalizing s' part head isLoop N T comps done with
  | nil =>
    exact ⟨s', part, head, isLoop, N, T, comps, done, rfl, hc, by simp, hpart, hspend⟩
  | cons c rest ih =>
    obtain ⟨hcu, hcn⟩ := hrest c List.mem_cons_self
    have hrest' : ∀ y ∈ rest, y ∈ succ u ∧ y ≤ n := fun y hy =>
      hrest y (List.mem_cons_of_mem c hy)
    -- what one successor does, whether it is visited or read off
    have hcame : ∃ s₂ part₂ min N₂ T₂ comps₂,
        (if s'.count c = 0 then visit s' c part else some (s', part, s'.count c)) =
          some (s₂, part₂, min) ∧
        Came succ u c s' s₂ N₂ T₂ comps₂ min ∧ Lists s₂ part₂ (N₂ ++ (N ++ P)) ∧
        Spends n s' s₂ := by
      by_cases h0 : s'.count c = 0
      · obtain ⟨s₂, part₂, min, N₂, T₂, comps₂, heq, hvis, hl, hsp⟩ :=
          hv s' c part (N ++ P) hc.numbered h0 hcn (hc.work_le.trans hbound) hpart
            (hc.placed_append hP)
        exact ⟨s₂, part₂, min, N₂, T₂, comps₂, by rw [if_pos h0, heq], hvis.came hc.numbered h0,
          hl, hsp⟩
      · exact ⟨s', part, s'.count c, [], [], [], by rw [if_neg h0],
          came_of_edge hc.numbered h0 hcu, hpart, le_rfl⟩
    obtain ⟨s₂, part₂, min, N₂, T₂, comps₂, heq, hcame, hl, hsp⟩ := hcame
    rw [← List.append_assoc] at hl
    obtain ⟨s'', part', head', isLoop', N', T', comps', done', heq', hc', hdone, hl', hsp'⟩ :=
      ih hrest' (hc.step hs hu htop hcame) hl (hsp.trans hspend)
    refine ⟨s'', part', head', isLoop', N', T', comps', done', ?_, hc', fun y => ?_, hl', hsp'⟩
    · rw [visitSuccs_cons heq, heq']
    · rw [hdone, List.mem_cons, List.mem_cons]
      tauto

/-- The visits of a component: the nodes `K` that were taken off the stack are closed but for what
is placed, so every visit places all its nodes. -/
theorem componentSuccs_spec (hv : VisitSpec succ n visit bound) {K : Set ℕ}
    (hK : ∀ k ∈ K, ∀ y ∈ succ k, s.count y = ⊤ ∨ s.count y = 0 ∧ y ∈ K)
    (hbound : work n s ≤ bound) (hP : ∀ x ∈ P, s.count x = ⊤) {rest : List ℕ}
    (hrest : ∀ y ∈ rest, y ≤ n ∧ (s.count y = ⊤ ∨ s.count y = 0 ∧ y ∈ K))
    (hp : Pass succ s s' N [] comps) (hN : ∀ x ∈ N, x ∈ K) (hpart : Lists s' part (N ++ P))
    (hspend : Spends n s s') :
    ∃ s'' part' N' comps', componentSuccs visit rest s' part = some (s'', part') ∧
      Pass succ s s'' N' [] comps' ∧ (∀ x ∈ N', x ∈ K) ∧ (∀ x ∈ N, x ∈ N') ∧
      (∀ y ∈ rest, s''.count y = ⊤) ∧ Lists s'' part' (N' ++ P) ∧ Spends n s s'' := by
  induction rest generalizing s' part N comps with
  | nil =>
    exact ⟨s', part, N, comps, rfl, hp, hN, fun x hx => hx, by simp, hpart, hspend⟩
  | cons c rest ih =>
    obtain ⟨hcn, hck⟩ := hrest c List.mem_cons_self
    have hrest' : ∀ y ∈ rest, y ≤ n ∧ (s.count y = ⊤ ∨ s.count y = 0 ∧ y ∈ K) := fun y hy =>
      hrest y (List.mem_cons_of_mem c hy)
    by_cases h0 : s'.count c = 0
    · obtain ⟨s₂, part₂, min, N₂, T₂, comps₂, heq, hvis, hl, hsp⟩ :=
        hv s' c part (N ++ P) hp.numbered h0 hcn (hp.work_le.trans hbound) hpart
          (hp.placed_append hP)
      have hcK : c ∈ K := by
        rcases hck with htop | hck
        · rw [(hp.white h0).2.2] at htop
          cases htop
        · exact hck.2
      have hin : ∀ x, x ∈ N₂ ∨ x ∈ T₂ → x ∈ K := by
        apply hvis.within K hcK
        intro k hk y hy hy0
        rcases hK k hk y hy with htop | hyK
        · rw [(hp.white hy0).2.2] at htop
          cases htop
        · exact hyK.2
      -- an edge to the stack would leave `K`
      have hT : T₂ = [] := by
        by_contra hne
        obtain ⟨t, ht, y, hy, hys, -⟩ := hvis.back hne
        rw [hp.stack, List.nil_append] at hys
        have hys' : y ∈ s'.nodeStack := by rw [hp.stack]; exact hys
        obtain ⟨hy0, hytop⟩ := (hp.numbered.onStack y).mp hys'
        rcases hK t (hin t (.inr ht)) y hy with htop | hyK
        · exact hytop (by rw [hp.stays (by rw [htop]; exact WithTop.top_ne_zero), htop])
        · by_cases hyN : y ∈ N
          · exact hytop (hp.placed y hyN)
          · exact hy0 (by rw [hp.count y hyN (by simp), hyK.1])
      subst hT
      have hp₂ : Pass succ s s₂ (N₂ ++ N) [] (comps ++ comps₂) := hp.trans hvis.toPass
      have hN₂ : ∀ x ∈ N₂ ++ N, x ∈ K := fun x hx =>
        (List.mem_append.mp hx).elim (fun h => hin x (.inl h)) (hN x)
      rw [← List.append_assoc] at hl
      obtain ⟨s'', part', N', comps', heq', hp', hN', hsub, hdone, hl', hsp'⟩ :=
        ih hrest' hp₂ hN₂ hl (hsp.trans hspend)
      refine ⟨s'', part', N', comps', ?_, hp', hN', fun x hx => hsub x (List.mem_append_right N₂ hx),
        fun y hy => ?_, hl', hsp'⟩
      · rw [componentSuccs, if_pos h0, heq]
        exact heq'
      · rcases List.mem_cons.mp hy with rfl | hy
        · apply hp'.placed
          apply hsub
          exact List.mem_append_left N (hvis.reached.resolve_right (by simp))
        · exact hdone y hy
    · obtain ⟨s'', part', N', comps', heq', hp', hN', hsub, hdone, hl', hsp'⟩ :=
        ih hrest' hp hN hpart hspend
      refine ⟨s'', part', N', comps', ?_, hp', hN', hsub, fun y hy => ?_, hl', hsp'⟩
      · rw [componentSuccs, if_neg h0, heq']
      · rcases List.mem_cons.mp hy with rfl | hy
        · rcases hck with htop | hck
          · rw [hp'.stays (by rw [htop]; exact WithTop.top_ne_zero), htop]
          · by_cases hyN : y ∈ N
            · exact hp'.placed y (hsub y hyN)
            · exact absurd (by rw [hp.count y hyN (by simp), hck.1]) h0
        · exact hdone y hy

theorem popUntil_append {S : List ℕ} {count : ℕ → WithTop ℕ} (hu : u ∉ T) :
    popUntil u (T ++ u :: S) count = some (S, fun x => if x ∈ T then 0 else count x) := by
  induction T generalizing count with
  | nil => simp [popUntil]
  | cons t T ih =>
    have ht : t ≠ u := fun h => hu (h ▸ List.mem_cons_self)
    rw [List.cons_append, popUntil, if_neg ht, ih fun h => hu (List.mem_cons_of_mem t h)]
    congr 2
    funext x
    by_cases hx : x = t
    · simp [hx]
    · simp [hx]

/-- The state in which `u` and the nodes above it on the stack are to be visited again. -/
def reopen (s : OrderState) (u : ℕ) (T S : List ℕ) : OrderState :=
  { s with nodeStack := S, count := fun x => if x = u ∨ x ∈ T then 0 else s.count x }

/-- `u` has its place. -/
def place (s : OrderState) (u : ℕ) : OrderState :=
  { s with count := Function.update s.count u ⊤ }

theorem count_place : (s.place u).count x = if x = u then ⊤ else s.count x := by
  simp only [place, Function.update_apply]

/-- What `close` makes of the counts. -/
theorem count_reopen_place {S : List ℕ} (hu : u ∉ T) :
    ((s.reopen u T S).place u).count =
      fun x => if x ∈ T then 0 else Function.update s.count u ⊤ x := by
  funext x
  rw [count_place, Function.update_apply]
  by_cases hx : x = u
  · rw [if_pos hx, if_neg (hx ▸ hu), if_pos hx]
  · simp only [reopen, hx, if_false, false_or]

theorem Numbered.place (hs : Numbered s) (hu : s.count u = 0) : Numbered (s.place u) := by
  have hne : ∀ x ∈ s.nodeStack, (s.place u).count x = s.count x := by
    intro x hx
    have hxu : x ≠ u := fun h => ((hs.onStack x).mp hx).1 (h ▸ hu)
    rw [count_place, if_neg hxu]
  refine ⟨fun x => ?_, ?_, fun x hx => ?_, fun x hx => ?_⟩
  · by_cases hx : x = u
    · simp [count_place, hx]
      exact fun h => ((hs.onStack u).mp h).1 hu
    · rw [count_place, if_neg hx]
      exact hs.onStack x
  · refine hs.sorted.imp_of_mem fun {a b} ha hb hab => ?_
    rw [hne a ha, hne b hb]
    exact hab
  · rw [hne x hx]
    exact hs.bound x hx
  · apply hs.unheaded
    rw [count_place] at hx
    split at hx
    · exact absurd rfl hx
    · exact hx

namespace Scanned

variable {done : List ℕ}

/-- The stack after the scan, with the nodes of the scan, `u` and the nodes before it apart. -/
theorem stack_eq (hc : Scanned succ u (s.push u) s' N T comps head isLoop done) :
    s'.nodeStack = T ++ u :: s.nodeStack := hc.stack

theorem notMem (hc : Scanned succ u (s.push u) s' N T comps head isLoop done) : u ∉ T :=
  fun hu => absurd (hc.below hu List.mem_cons_self) (lt_irrefl _)

/-- With `u` and the nodes above it off the stack, the scan is a pass that placed its nodes. -/
theorem reopen (hc : Scanned succ u (s.push u) s' N T comps head isLoop done)
    (hs : Numbered s) (hu : s.count u = 0) :
    Pass succ s (s'.reopen u T s.nodeStack) N [] comps := by
  have hstack := hc.stack_eq
  have hsorted := hc.numbered.sorted
  rw [hstack] at hsorted
  have hbelow := (List.pairwise_append.mp hsorted).2.1
  have hold : ∀ x ∈ s.nodeStack, x ≠ u ∧ x ∉ T := by
    intro x hx
    refine ⟨fun h => ?_, fun h => ?_⟩
    · exact ((hs.onStack x).mp hx).1 (h ▸ hu)
    · exact absurd (hc.below h (List.mem_cons_of_mem u hx)) (lt_irrefl _)
  have hcount : ∀ x, x ≠ u → x ∉ T → (s'.reopen u T s.nodeStack).count x = s'.count x :=
    fun x hx hT => if_neg (not_or.mpr ⟨hx, hT⟩)
  have hpush : ∀ x, x ≠ u → (s.push u).count x = s.count x := fun x hx => by
    rw [count_push, if_neg hx]
  have hN : ∀ x ∈ N, x ≠ u ∧ x ∉ T ∧ s.count x = 0 := by
    intro x hx
    have h0 := hc.fresh x (.inl hx)
    have hxu : x ≠ u := fun h => by
      rw [count_push, if_pos h] at h0
      exact absurd h0 (by simp)
    refine ⟨hxu, fun hT => (hc.onStack hT).2 (hc.placed x hx), ?_⟩
    rw [← hpush x hxu, h0]
  have htop : ∀ y, (s.push u).count y = ⊤ → y ≠ u := fun y hy h => by
    rw [count_push, if_pos h] at hy
    exact absurd hy (by simp)
  refine ⟨⟨fun x => ?_, ?_, fun x hx => ?_, fun x hx => ?_⟩, fun x hx => ?_, hc.nodup, rfl,
    fun x hx => ?_, fun x hx _ => ?_, hc.next, hc.partHead, fun x hx y hy => ?_,
    fun x hx y hy => ?_, hc.components, hc.records, hc.heads⟩
  · have hiff := hc.numbered.onStack x
    rw [hstack] at hiff
    constructor
    · intro hx
      rw [hcount x (hold x hx).1 (hold x hx).2]
      exact hiff.mp (List.mem_append_right T (.tail u hx))
    · intro hx
      have hxu : x ≠ u ∧ x ∉ T := by
        by_contra hne
        exact hx.1 (if_pos (by tauto))
      rw [hcount x hxu.1 hxu.2] at hx
      have := hiff.mpr hx
      simp only [List.mem_append, List.mem_cons] at this
      tauto
  · refine (List.pairwise_cons.mp hbelow).2.imp_of_mem fun {a b} ha hb hab => ?_
    rw [hcount a (hold a ha).1 (hold a ha).2, hcount b (hold b hb).1 (hold b hb).2]
    exact hab
  · rw [hcount x (hold x hx).1 (hold x hx).2]
    exact hc.numbered.bound x (by rw [hstack]; exact List.mem_append_right T (.tail u hx))
  · apply hc.numbered.unheaded
    by_cases hxu : x = u ∨ x ∈ T
    · apply ((hc.numbered.onStack x).mp ?_).2
      rw [hstack]
      rcases hxu with rfl | hT
      · exact List.mem_append_right T List.mem_cons_self
      · exact List.mem_append_left _ hT
    · rwa [hcount x (fun h => hxu (.inl h)) fun h => hxu (.inr h)] at hx
  · exact (hN x (hx.resolve_right (by simp))).2.2
  · rw [hcount x (hN x hx).1 (hN x hx).2.1]
    exact hc.placed x hx
  · by_cases hxu : x = u
    · rw [hxu, hu]
      exact if_pos (.inl rfl)
    · by_cases hT : x ∈ T
      · rw [← hpush x hxu, hc.fresh x (.inr hT)]
        exact if_pos (.inr hT)
      · rw [hcount x hxu hT, hc.count x hx hT, hpush x hxu]
  · -- an edge of a placed node does not come to a node that is taken back
    have hplaced : ∀ z, s'.count z = ⊤ → z ≠ u → (s'.reopen u T s.nodeStack).count z ≠ 0 := by
      intro z hz hzu
      rw [hcount z hzu fun hT => (hc.onStack hT).2 hz, hz]
      exact WithTop.top_ne_zero
    have hin : ∀ z ∈ N, (s'.reopen u T s.nodeStack).count z ≠ 0 := fun z hz =>
      hplaced z (hc.placed z hz) (hN z hz).1
    rcases hc.edges x (hx.resolve_right (by simp)) y hy with h | h | ⟨C, hC, hhead, -⟩
    · exact hplaced y (by rw [hc.stays (by rw [h]; exact WithTop.top_ne_zero), h]) (htop y h)
    · exact hin y (h.subset (by simp))
    · exact hin y (hc.components.head_mem hC hhead)
  · refine (hc.edges x hx y hy).imp_left fun h => ?_
    rw [← hpush y (htop y h), h]

/-- Where no node came below `u`, all edges of `u` and of the nodes above it stay among them or go
to placed nodes. -/
theorem shut (hc : Scanned succ u (s.push u) s' N T comps head isLoop done) (hs : Numbered s)
    (hu : s.count u = 0) (hdone : ∀ y ∈ succ u, y ∈ done) (hhead : head = (s.push u).count u)
    {k : ℕ} (hk : k = u ∨ k ∈ T) (hy : y ∈ succ k) :
    ((s'.reopen u T s.nodeStack).place u).count y = ⊤ ∨
      ((s'.reopen u T s.nodeStack).place u).count y = 0 ∧ y ∈ T := by
  have hseen : s'.count y ≠ 0 := by
    rcases hk with rfl | hk
    · exact hc.seenDone y (hdone y hy)
    · exact hc.closed k (.inr hk) y hy
  rw [count_reopen_place hc.notMem]
  by_cases hyT : y ∈ T
  · exact .inr ⟨if_pos hyT, hyT⟩
  · refine .inl ?_
    simp only [if_neg hyT, Function.update_apply]
    split
    · rfl
    · next hyu =>
      by_contra htop
      have hmem := (hc.numbered.onStack y).mpr ⟨hseen, htop⟩
      rw [hc.stack_eq] at hmem
      have hys : y ∈ s.nodeStack := by
        simp only [List.mem_append, List.mem_cons] at hmem
        tauto
      -- such a node has a number below that of `u`
      have hlow : head ≤ (s.push u).count y := by
        rcases hk with rfl | hk
        · exact hc.lowDone y (hdone y hy) (List.mem_cons_of_mem k hys)
        · exact hc.low k hk y hy (List.mem_cons_of_mem u hys)
      rw [hhead] at hlow
      have hlt := (List.pairwise_cons.mp (hs.push hu).sorted).1 y hys
      exact absurd hlow (not_le.mpr hlt)

end Scanned

/-- Only the links of the listed nodes matter. -/
theorem Lists.congr (hl : Lists s part P) (hn : ∀ x ∈ P, s'.next x = s.next x) :
    Lists s' part P :=
  ⟨hl.1.congr hn, hl.2⟩

theorem lists_nil : Lists s {} [] := ⟨rfl, rfl⟩

theorem lists_prependNode (hl : Lists s part P) (hu : u ∉ P) :
    Lists (s.partitionPrependNode u part).1 (s.partitionPrependNode u part).2 (u :: P) := by
  constructor
  · refine ⟨rfl, ?_⟩
    rw [show (s.partitionPrependNode u part).1.next u = part.startNode from Function.update_self ..]
    apply hl.1.congr
    intro x hx
    have hxu : x ≠ u := fun h => hu (h ▸ hx)
    exact Function.update_of_ne hxu ..
  · change part.stopNode.or (some u) = _
    rw [hl.2]
    cases P with
    | nil => rfl
    | cons a P => rw [List.getLast?_cons_cons, List.getLast?_cons]; rfl

theorem lists_prependPart {C : List ℕ} {a : ℕ} {top : Partition} (hc : Lists s top (C ++ [a]))
    (hn : (C ++ [a]).Nodup) (hl : Lists s part P) (hd : (C ++ [a]).Disjoint P) :
    ∃ part', s.partitionPrependPart top part =
        some ({ s with next := Function.update s.next a part.startNode }, part') ∧
      Lists { s with next := Function.update s.next a part.startNode } part' (C ++ [a] ++ P) := by
  have hstop : top.stopNode = some a := by rw [hc.2]; simp
  refine ⟨{ part with startNode := top.startNode, stopNode := part.stopNode.or top.stopNode },
    by rw [partitionPrependPart, hstop]; rfl, ?_, ?_⟩
  · rw [List.append_assoc, List.singleton_append]
    refine hc.1.append (t := part.startNode) ?_ (Function.update_self ..) fun b hb => ?_
    · apply hl.1.congr
      intro x hx
      have hxa : x ≠ a := fun h => hd (List.mem_append_right C (by simp [h])) hx
      exact Function.update_of_ne hxa ..
    · have hne : b ≠ a := fun h =>
        (List.nodup_append.mp hn).2.2 b hb a List.mem_cons_self h
      exact Function.update_of_ne hne ..
  · change part.stopNode.or top.stopNode = _
    rw [hl.2, hstop, List.getLast?_append]
    simp

/-- A node without an edge to itself or to nodes that are not placed is placed alone. -/
theorem Pass.alone (hs : Numbered s) (hu : s.count u = 0) (hsucc : ∀ y ∈ succ u, s.count y = ⊤)
    (start : Option ℕ) :
    Pass succ s { s.place u with next := Function.update s.next u start } [u] [] [] := by
  have hplaced := hs.place hu
  refine ⟨⟨hplaced.onStack, hplaced.sorted, hplaced.bound, hplaced.unheaded⟩, fun x hx => ?_,
    List.nodup_singleton u, rfl, fun x hx => ?_, fun x hx _ => ?_, fun x hx => ?_,
    fun _ _ => rfl, fun x hx y hy => ?_, fun x hx y hy => .inl ?_, components_nil,
    ⟨[], by simp [place], .nil⟩, fun x hx k => ?_⟩
  · rw [List.mem_singleton.mp (hx.resolve_right (by simp)), hu]
  · rw [List.mem_singleton.mp hx]
    exact Function.update_self ..
  · exact Function.update_of_ne (fun h => hx (by simp [h])) ..
  · exact Function.update_of_ne (fun h => hx (by simp [h])) ..
  · rw [List.mem_singleton.mp (hx.resolve_right (by simp))] at hy
    change (s.place u).count y ≠ 0
    rw [count_place, hsucc y hy]
    split <;> exact WithTop.top_ne_zero
  · rw [List.mem_singleton.mp hx] at hy
    exact hsucc y hy
  · rw [List.mem_singleton.mp hx]
    have hnone := hs.unheaded u (by rw [hu]; exact WithTop.zero_ne_top)
    change s.partHead u = some k ↔ _
    rw [hnone]
    simp [HeadsAt]

/-- A node is placed in front of the nodes that were visited again, and heads the component. -/
theorem exists_component {s₃ : OrderState} {compPart : Partition}
    (hu : s.count u = 0) (hp : Pass succ (s.place u) s₃ N [] comps)
    (hsucc : ∀ y ∈ succ u, (s.place u).count y = ⊤ ∨ y ∈ N) (hc : Lists s₃ compPart N)
    (hl : Lists s part P) (hP : ∀ x ∈ P, s.count x = ⊤) :
    ∃ s₄ s₅ part',
      (s₃.partitionPrependNode u compPart).1.partitionSurround
        (s₃.partitionPrependNode u compPart).2 = some s₄ ∧
      s₄.partitionPrependPart (s₃.partitionPrependNode u compPart).2 part = some (s₅, part') ∧
      Pass succ s s₅ (u :: N) [] (comps ++ [u :: N]) ∧ Lists s₅ part' (u :: N ++ P) ∧
      s₅.count = s₃.count ∧ s₅.depthFirstIndex = s₃.depthFirstIndex := by
  have htop : (s.place u).count u = ⊤ := by rw [count_place, if_pos rfl]
  have huN : u ∉ N := fun h => by
    have h0 := hp.fresh u (.inl h)
    rw [htop] at h0
    cases h0
  have hne : ∀ x, (s.place u).count x = 0 → x ≠ u := fun x h0 h => by
    rw [h, htop] at h0
    cases h0
  have hfresh : ∀ x ∈ u :: N, s.count x = 0 := by
    intro x hx
    rcases List.mem_cons.mp hx with rfl | hx
    · exact hu
    · have h0 := hp.fresh x (.inl hx)
      have hxu := hne x h0
      rwa [count_place, if_neg hxu] at h0
  have hdisj : (u :: N).Disjoint P := fun x hx hxP => by
    have h0 := hfresh x hx
    rw [hP x hxP] at h0
    cases h0
  have hnodup : (u :: N).Nodup := List.nodup_cons.mpr ⟨huN, hp.nodup⟩
  obtain ⟨C, a, hCa⟩ : ∃ C a, u :: N = C ++ [a] :=
    ⟨_, _, (List.dropLast_append_getLast (List.cons_ne_nil u N)).symm⟩
  have hmem : ∀ x, x ∉ u :: N → x ≠ u ∧ x ∉ N ∧ x ≠ a := fun x hx => by
    refine ⟨fun h => hx (by simp [h]), fun h => hx (List.mem_cons_of_mem u h), fun h => hx ?_⟩
    rw [hCa, h]
    simp
  have hlists := lists_prependNode hc huN
  set s₄ : OrderState := { (s₃.partitionPrependNode u compPart).1 with
    recordStorage := s₃.recordStorage ++ [(s₃.partitionPrependNode u compPart).2]
    partHead := Function.update s₃.partHead u (some s₃.recordStorage.length) } with hs₄
  have hnext₄ : ∀ x, x ∉ u :: N → s₄.next x = s.next x := fun x hx => by
    obtain ⟨hxu, hxN, -⟩ := hmem x hx
    exact (Function.update_of_ne hxu ..).trans (hp.next x hxN)
  have hlists₄ : Lists s₄ (s₃.partitionPrependNode u compPart).2 (C ++ [a]) := by
    rw [← hCa]
    exact ⟨hlists.1, hlists.2⟩
  have hl₄ : Lists s₄ part P := hl.congr fun x hx => hnext₄ x fun h => hdisj h hx
  obtain ⟨part', heq, hpart'⟩ :=
    lists_prependPart hlists₄ (hCa ▸ hnodup) hl₄ (hCa ▸ hdisj)
  refine ⟨s₄, _, part', rfl, heq, ?_, hCa ▸ hpart', rfl, rfl⟩
  refine ⟨⟨hp.numbered.onStack, hp.numbered.sorted, hp.numbered.bound, fun x hx => ?_⟩,
    fun x hx => hfresh x (hx.resolve_right (by simp)), hnodup, hp.stack, fun x hx => ?_,
    fun x hx _ => ?_, fun x hx => ?_, fun x hx => ?_, fun x hx y hy => ?_, fun x hx y hy => ?_,
    hp.components.surround huN, ?_, fun x hx k => ?_⟩
  · have hxu : x ≠ u := fun h => hx (by
      change s₃.count x = ⊤
      rw [h, hp.stays (by rw [htop]; exact WithTop.top_ne_zero), htop])
    exact (Function.update_of_ne hxu ..).trans (hp.numbered.unheaded x hx)
  · change s₃.count x = ⊤
    rcases List.mem_cons.mp hx with rfl | hx
    · rw [hp.stays (by rw [htop]; exact WithTop.top_ne_zero), htop]
    · exact hp.placed x hx
  · obtain ⟨hxu, hxN, -⟩ := hmem x hx
    change s₃.count x = s.count x
    rw [hp.count x hxN (by simp), count_place, if_neg hxu]
  · exact (Function.update_of_ne (hmem x hx).2.2 ..).trans (hnext₄ x hx)
  · obtain ⟨hxu, hxN, -⟩ := hmem x hx
    exact (Function.update_of_ne hxu ..).trans (hp.partHead x hxN)
  · change s₃.count y ≠ 0
    rcases List.mem_cons.mp (hx.resolve_right (by simp)) with rfl | hx
    · rcases hsucc y hy with h | h
      · rw [hp.stays (by rw [h]; exact WithTop.top_ne_zero), h]
        exact WithTop.top_ne_zero
      · rw [hp.placed y h]
        exact WithTop.top_ne_zero
    · exact hp.closed x (.inl hx) y hy
  · by_cases hyu : y = u
    · -- an edge to the head goes back
      exact .inr (.inr ⟨u :: N, by simp, by rw [hyu]; rfl, hx⟩)
    · have hplace : (s.place u).count y = ⊤ → s.count y = ⊤ := fun h => by
        rwa [count_place, if_neg hyu] at h
      rcases List.mem_cons.mp hx with rfl | hx
      · exact (hsucc y hy).imp hplace fun h => .inl (before_cons h)
      · rcases hp.edges x hx y hy with h | h | h
        · exact .inl (hplace h)
        · exact .inr (.inl (h.mono (List.sublist_cons_self u N)))
        · exact .inr (.inr (h.mono (List.subset_append_left comps _)))
  · obtain ⟨recs, hrecs, hall⟩ := hp.records
    refine ⟨recs ++ [(s₃.partitionPrependNode u compPart).2], ?_, ?_⟩
    · change s₃.recordStorage ++ _ = _
      rw [hrecs, List.append_assoc]
      rfl
    · exact List.rel_append hall (.cons ⟨rfl, hlists.2⟩ .nil)
  · have hlen : s₃.recordStorage.length = s.recordStorage.length + comps.length :=
      hp.length_records
    rw [headsAt_surround]
    rcases List.mem_cons.mp hx with rfl | hx
    · have hpart : s₄.partHead x = some s₃.recordStorage.length := Function.update_self ..
      change s₄.partHead x = some k ↔ _
      rw [hpart, hlen, Option.some.injEq]
      constructor
      · exact fun h => .inr ⟨rfl, h.symm⟩
      · rintro (h | h)
        · exact absurd (h.mem hp.components) huN
        · exact h.2.symm
    · have hxu : x ≠ u := fun h => huN (h ▸ hx)
      have hpart : s₄.partHead x = s₃.partHead x := Function.update_of_ne hxu ..
      change s₄.partHead x = some k ↔ _
      rw [hpart, hp.heads x hx]
      exact ⟨.inl, fun h => h.resolve_right fun h => hxu h.1.symm⟩

variable {d : DataFlow} {f : Funcdata} {done : List ℕ}

/-- After the pops the counts are those of the reopened state, with `u` placed. -/
theorem reopen_place_eq {S : List ℕ} (hu : u ∉ T) :
    { s with count := fun x => if x ∈ T then 0 else Function.update s.count u ⊤ x, nodeStack := S } =
      (s.reopen u T S).place u := by
  rw [← count_reopen_place (S := S) hu]
  rfl

/-- Where no node came below `u`, it is placed, in front of the nodes above it if there was a way
back to it. -/
theorem close_spec {n bound : ℕ} (hv : VisitSpec (d.succ f) n visit bound)
    (hn : ∀ x, ∀ y ∈ d.succ f x, y ≤ n) (hs : Numbered s) (hu : s.count u = 0) (hun : u ≤ n)
    (hc : Scanned (d.succ f) u (s.push u) s' N T comps head isLoop done)
    (hdone : ∀ y ∈ d.succ f u, y ∈ done) (hhead : head = (s.push u).count u)
    (hl : Lists s' part (N ++ P)) (hP : ∀ x ∈ P, s.count x = ⊤) (hbound : work n s' ≤ bound) :
    ∃ s'' part' N' comps', close visit d f s' u part isLoop = some (s'', part') ∧
      Pass (d.succ f) s s'' (u :: N' ++ N) [] (comps ++ comps') ∧ (∀ x ∈ N', x ∈ T) ∧
      (comps' ≠ [] → isLoop = true) ∧ Lists s'' part' (u :: N' ++ N ++ P) ∧ Spends n s' s'' := by
  set r := s'.reopen u T s.nodeStack with hr
  have hp : Pass (d.succ f) s r N [] comps := hc.reopen hs hu
  have hru : r.count u = 0 := if_pos (.inl rfl)
  have hshut : ∀ k, k = u ∨ k ∈ T → ∀ y ∈ d.succ f k,
      (r.place u).count y = ⊤ ∨ (r.place u).count y = 0 ∧ y ∈ T := fun k hk y hy =>
    hc.shut hs hu hdone hhead hk hy
  have hlr : Lists r part (N ++ P) := hl
  have hPr : ∀ x ∈ N ++ P, r.count x = ⊤ := hp.placed_append hP
  -- placing `u` pays for the visits that follow
  have hcount := count_reopen_place (s := s') (S := s.nodeStack) hc.notMem
  have hmem : u ∈ s'.nodeStack := by rw [hc.stack_eq]; simp
  have hwork : work n (r.place u) < work n s' := by
    apply work_lt_of_placed hun ((hc.numbered.onStack u).mp hmem).2
    · rw [count_place, if_pos rfl]
    · intro x hx
      rw [hcount]
      simp only [Function.update_apply, hx, ite_self]
      exact if_neg fun hT => (hc.onStack hT).2 hx
  cases isLoop with
  | false =>
    obtain ⟨rfl, -⟩ := hc.quiet rfl
    have hself : u ∉ d.succ f u := fun h => by cases hc.self (hdone u h)
    have htop : ∀ y ∈ d.succ f u, r.count y = ⊤ := by
      intro y hy
      have hyu : y ≠ u := fun h => hself (h ▸ hy)
      have hplace := (hshut u (.inl rfl) y hy).resolve_right (by simp)
      rwa [count_place, if_neg hyu] at hplace
    have hstate : { s' with count := Function.update s'.count u ⊤, nodeStack := s.nodeStack } =
        r.place u := by
      rw [hr, ← reopen_place_eq hc.notMem]
      simp
    have huP : u ∉ N ++ P := fun h => by
      have h0 := hPr u h
      rw [hru] at h0
      cases h0
    refine ⟨_, _, [], [], ?_, hp.trans (.alone hp.numbered hru htop part.startNode), by simp,
      by simp, lists_prependNode (s := r.place u) hlr huP, ?_⟩
    · rw [close, if_neg (by simp), hc.stack_eq, List.nil_append]
      change some (partitionPrependNode { s' with
        count := Function.update s'.count u ⊤, nodeStack := s.nodeStack } u part) = _
      rw [hstate]
      rfl
    · exact Nat.add_le_add_left hwork.le s'.depthFirstIndex
  | true =>
    have hrest : ∀ y ∈ d.succ f u,
        y ≤ n ∧ ((r.place u).count y = ⊤ ∨ (r.place u).count y = 0 ∧ y ∈ T) := fun y hy =>
      ⟨hn u y hy, hshut u (.inl rfl) y hy⟩
    obtain ⟨s₃, compPart, N₂, comps₂, heq, hp₂, hN₂, -, hdone₂, hl₂, hspend⟩ :=
      componentSuccs_spec (P := []) (K := {x | x ∈ T}) hv (fun k hk => hshut k (.inr hk))
        (hwork.le.trans hbound) (by simp) hrest (.refl (hp.numbered.place hru)) (by simp)
        lists_nil le_rfl
    rw [List.append_nil] at hl₂
    have hsucc : ∀ y ∈ d.succ f u, (r.place u).count y = ⊤ ∨ y ∈ N₂ := by
      intro y hy
      by_cases hyN : y ∈ N₂
      · exact .inr hyN
      · exact .inl (by rw [← hp₂.count y hyN (by simp), hdone₂ y hy])
    obtain ⟨s₄, s₅, part', hsurround, hprepend, hpass, hl₅, hcount₅, hindex₅⟩ :=
      exists_component hru hp₂ hsucc hl₂ hlr hPr
    refine ⟨s₅, part', N₂, comps₂ ++ [u :: N₂], ?_, hp.trans hpass, hN₂, fun _ => rfl, ?_, ?_⟩
    · rw [close, if_pos rfl, hc.stack_eq, popUntil_append hc.notMem]
      change (component visit d f { s' with
        count := fun x => if x ∈ T then 0 else Function.update s'.count u ⊤ x
        nodeStack := s.nodeStack } u {}).bind _ = _
      rw [reopen_place_eq hc.notMem, component, (d.successors_spec f u).1]
      simp only [Option.bind_eq_bind, Option.bind_some, ← hr, heq, hsurround, hprepend]
    · rw [List.append_assoc]
      exact hl₅
    · have hsame : work n s₅ = work n s₃ := by rw [work, work, hcount₅]
      unfold Spends at hspend ⊢
      rw [hsame, hindex₅]
      exact hspend.trans (Nat.add_le_add_left hwork.le s'.depthFirstIndex)

/-- Where a node came below `u`, `u` stays on the stack, under the nodes above it. -/
theorem Scanned.left (hc : Scanned succ u (s.push u) s' N T comps head isLoop done)
    (hs : Numbered s) (hu : s.count u = 0) (hdone : ∀ y, y ∈ done ↔ y ∈ succ u)
    (hhead : head ≠ (s.push u).count u) : Visited succ u s s' N (T ++ [u]) comps head := by
  have hp := hc.reopen hs hu
  have hpush : ∀ x, x ≠ u → (s.push u).count x = s.count x := fun x hx => by
    rw [count_push, if_neg hx]
  have hne : ∀ y ∈ s.nodeStack, y ≠ u := fun y hy h => ((hs.onStack y).mp hy).1 (h ▸ hu)
  have hfresh : ∀ x, (s.push u).count x = 0 → s.count x = 0 := fun x h0 => by
    by_cases hx : x = u
    · rw [hx, hu]
    · rw [← hpush x hx, h0]
  have huN : u ∉ N := fun h => by
    have h0 := hc.fresh u (.inl h)
    rw [count_push, if_pos rfl] at h0
    exact absurd h0 (by simp)
  refine ⟨⟨hc.numbered, fun x hx => ?_, hc.nodup, ?_, hc.placed, fun x hN hT => ?_, hc.next,
    hc.partHead, fun x hx y hy => ?_, hp.edges, hc.components, hc.records, hc.heads⟩,
    .inr (by simp), fun K hK hcl x hx => ?_, by simp, fun _ => ?_, fun t ht y hy hys => ?_,
    fun C hC hhead => absurd (hc.components.head_mem hC hhead) huN⟩
  · rcases hx with hx | hx
    · exact hfresh x (hc.fresh x (.inl hx))
    · rcases List.mem_append.mp hx with hx | hx
      · exact hfresh x (hc.fresh x (.inr hx))
      · rw [List.mem_singleton.mp hx, hu]
  · rw [hc.stack_eq, List.append_assoc]
    rfl
  · simp only [List.mem_append, List.mem_singleton, not_or] at hT
    rw [hc.count x hN hT.1, hpush x hT.2]
  · rcases hx with hx | hx
    · exact hc.closed x (.inl hx) y hy
    · rcases List.mem_append.mp hx with hx | hx
      · exact hc.closed x (.inr hx) y hy
      · rw [List.mem_singleton.mp hx] at hy
        exact hc.seenDone y ((hdone y).mpr hy)
  · have hin := hc.within K (fun y hy h0 => hcl u hK y ((hdone y).mp hy) (hfresh y h0))
      fun k hk y hy h0 => hcl k hk y hy (hfresh y h0)
    rcases hx with hx | hx
    · exact hin x (.inl hx)
    · rcases List.mem_append.mp hx with hx | hx
      · exact hin x (.inr hx)
      · rw [List.mem_singleton.mp hx]
        exact hK
  · have hloop : isLoop = true := by
      cases isLoop with
      | true => rfl
      | false => exact absurd (hc.quiet rfl).2 hhead
    obtain ⟨t, ht, y, hy, hys, hyh⟩ := hc.loop hloop
    have hyu : y ≠ u := fun h => hhead (by rw [← hyh, h])
    refine ⟨t, ?_, y, hy, (List.mem_cons.mp hys).resolve_left hyu, by rw [← hpush y hyu, hyh]⟩
    rcases ht with rfl | ht
    · simp
    · exact List.mem_append_left _ ht
  · rw [← hpush y (hne y hys)]
    rcases List.mem_append.mp ht with ht | ht
    · exact hc.low t ht y hy (List.mem_cons_of_mem u hys)
    · rw [List.mem_singleton.mp ht] at hy
      exact hc.lowDone y ((hdone y).mpr hy) (List.mem_cons_of_mem u hys)

/-- A scan whose head is the number of `u` itself found a way back to `u`, if to anything. -/
theorem Scanned.returns (hc : Scanned succ u (s.push u) s' N T comps head isLoop done)
    (hs : Numbered s) (hu : s.count u = 0) (hhead : head = (s.push u).count u)
    (hloop : isLoop = true) : ∃ t, u ∈ succ t := by
  obtain ⟨t, -, y, hy, hys, hyh⟩ := hc.loop hloop
  rcases List.mem_cons.mp hys with rfl | hys
  · exact ⟨t, hy⟩
  · have hlt := (List.pairwise_cons.mp (hs.push hu).sorted).1 y hys
    rw [hyh, hhead] at hlt
    exact absurd hlt (lt_irrefl _)

theorem visit_succ (fuel : ℕ) : OrderState.visit d f (fuel + 1) s v part =
    (d.successors f v).bind fun l =>
      (visitSuccs (OrderState.visit d f fuel) l (s.push v) part (s.push v).depthFirstIndex
        false).bind fun (s, part, head, isLoop) =>
          if head = s.count v then
            (close (OrderState.visit d f fuel) d f s v part isLoop).bind fun (s, part) =>
              some (s, part, head)
          else some (s, part, head) := rfl

/-- Every visit does what `Visited` says, with fuel for what is left to do. -/
theorem visit_spec (d : DataFlow) (f : Funcdata) (fuel : ℕ) :
    VisitSpec (d.succ f) d.valueNodes.length (OrderState.visit d f fuel) fuel := by
  have hn : ∀ x, ∀ y ∈ d.succ f x, y ≤ d.valueNodes.length := fun x y hy =>
    ((d.successors_spec f x).2 y hy).le
  induction fuel with
  | zero =>
    intro s v part P _ hv hvn hwork _ _
    have := work_push hvn hv
    omega
  | succ fuel ih =>
    intro s v part P hs hv hvn hwork hl hP
    have hpush := work_push hvn hv
    have hs' := hs.push hv
    have htop : ∀ y ∈ (s.push v).nodeStack, (s.push v).count y ≤ (s.push v).count v := by
      intro y hy
      rcases List.mem_cons.mp hy with rfl | hy
      · exact le_rfl
      · exact ((List.pairwise_cons.mp hs'.sorted).1 y hy).le
    have hP' : ∀ x ∈ P, (s.push v).count x = ⊤ := by
      intro x hx
      have hxv : x ≠ v := fun h => by
        rw [← h, hP x hx] at hv
        cases hv
      rw [count_push, if_neg hxv, hP x hx]
    have hrest : ∀ y ∈ d.succ f v, y ∈ d.succ f v ∧ y ≤ d.valueNodes.length := fun y hy =>
      ⟨hy, hn v y hy⟩
    obtain ⟨s', part', head, isLoop, N, T, comps, done, heq, hc, hdone, hl', hspend⟩ :=
      visitSuccs_spec ih hs' List.mem_cons_self htop (by omega) hP' hrest (.refl hs') (N := []) hl
        le_rfl
    have hdone' : ∀ y, y ∈ done ↔ y ∈ d.succ f v := fun y => by rw [hdone]; simp
    have hkeep : s'.count v = (s.push v).count v :=
      hc.stays (by rw [count_push, if_pos rfl]; simp)
    have hfirst : (s.push v).count v = ((s.push v).depthFirstIndex : ℕ) := by
      rw [count_push, if_pos rfl]
      rfl
    have hpaid : Spends d.valueNodes.length s s' := by
      have hindex : (s.push v).depthFirstIndex = s.depthFirstIndex + 1 := rfl
      unfold Spends at hspend ⊢
      omega
    rw [hfirst] at heq
    by_cases hhead : head = (s.push v).count v
    · obtain ⟨s'', part'', N', comps', hclose, hp, hN', hloop, hl'', hspend'⟩ :=
        close_spec ih hn hs hv hvn hc (fun y hy => (hdone' y).mpr hy) hhead hl' hP
          (hc.work_le.trans (by omega))
      refine ⟨s'', part'', head, v :: N' ++ N, [], comps ++ comps', ?_, ?_, hl'',
        hspend'.trans hpaid⟩
      · rw [visit_succ, (d.successors_spec f v).1]
        simp only [Option.bind_some, heq, hkeep, if_pos hhead, hclose]
      · refine ⟨hp, .inl (by simp), fun K hK hcl x hx => ?_, fun _ => ⟨rfl, ?_⟩, by simp,
          by simp, fun C hC hCv => ?_⟩
        · have hfresh : ∀ y, (s.push v).count y = 0 → s.count y = 0 := fun y h0 => by
            rw [count_push] at h0
            split at h0
            · exact absurd h0 (by simp)
            · exact h0
          have hin := hc.within K
            (fun y hy h0 => hcl v hK y ((hdone' y).mp hy) (hfresh y h0))
            fun k hk y hy h0 => hcl k hk y hy (hfresh y h0)
          rcases List.mem_append.mp (hx.resolve_right (by simp)) with hx | hx
          · rcases List.mem_cons.mp hx with rfl | hx
            · exact hK
            · exact hin x (.inr (hN' x hx))
          · exact hin x (.inl hx)
        · rw [hhead, hfirst]
          rfl
        · apply hc.returns hs hv hhead
          apply hloop
          rintro rfl
          rw [List.append_nil] at hC
          have hfresh := hc.fresh v (.inl (hc.components.head_mem hC hCv))
          rw [hfirst] at hfresh
          exact absurd hfresh (by simp [push])
    · refine ⟨s', part', head, N, T ++ [v], comps, ?_, hc.left hs hv hdone' hhead, hl', hpaid⟩
      rw [visit_succ, (d.successors_spec f v).1]
      simp only [Option.bind_some, heq, hkeep, if_neg hhead]

end OrderState

end Mosura
