import Mosura.NzmaskTransfer
import Mosura.Lib.Worklist

/-! What the two phases of `calc_nzmask` leave behind: every mask is the transfer of masks that
were already sound. -/

namespace Mosura

abbrev Masks := VarnodeId → U64

namespace Funcdata

variable (f : Funcdata) (dom : Dominators)

/-- The graph `f` with the masks `nz`. -/
def withNzm (nz : Masks) : Funcdata := { f with vn := fun v => { f.vn v with nzm := nz v } }

@[simp] theorem withNzm_op (nz : Masks) : (f.withNzm nz).op = f.op := rfl
@[simp] theorem withNzm_nzm (nz : Masks) (v : VarnodeId) : ((f.withNzm nz).vn v).nzm = nz v := rfl
@[simp] theorem withNzm_size (nz : Masks) (v : VarnodeId) :
    ((f.withNzm nz).vn v).size = (f.vn v).size := rfl
@[simp] theorem withNzm_descend (nz : Masks) (v : VarnodeId) :
    ((f.withNzm nz).vn v).descend = (f.vn v).descend := rfl
@[simp] theorem withNzm_isLoopIn (nz : Masks) (op : OpId) (slot : ℕ) :
    (f.withNzm nz).isLoopIn dom op slot = f.isLoopIn dom op slot := rfl

theorem setNzm_withNzm (nz : Masks) (v : VarnodeId) (m : U64) :
    (f.withNzm nz).setNzm v m = f.withNzm (Function.update nz v m) := by
  unfold setNzm modVn withNzm
  congr 1
  funext u
  by_cases hu : u = v
  · subst hu
    simp
  · simp [Function.update_of_ne hu]

/-- The mask of the output of `op` when the inputs have the masks `nz`. -/
def nzmaskOf (nz : Masks) (op : OpId) (out : VarnodeId) (clip : Bool) : U64 :=
  (f.withNzm nz).opNzmaskLocal dom op out clip

variable {f}

theorem inVn_withNzm_congr {nz nz' : Masks} {op : OpId}
    (h : ∀ v ∈ (f.op op).inrefs, nz v = nz' v) (slot : ℕ) :
    (f.withNzm nz).inVn op slot = (f.withNzm nz').inVn op slot := by
  unfold inVn
  simp only [withNzm_op]
  cases hi : (f.op op).input slot with
  | none => rfl
  | some v =>
    have hv : v ∈ (f.op op).inrefs := List.mem_of_getElem? hi
    simp only [Option.elim_some, withNzm, h v hv]

/-- Only the masks of the inputs matter. -/
theorem nzmaskOf_congr {nz nz' : Masks} {op : OpId} (h : ∀ v ∈ (f.op op).inrefs, nz v = nz' v)
    (out : VarnodeId) (clip : Bool) :
    f.nzmaskOf dom nz op out clip = f.nzmaskOf dom nz' op out clip := by
  unfold nzmaskOf opNzmaskLocal multiequalMask
  simp only [inVn_withNzm_congr h, withNzm_op, withNzm_size, withNzm_isLoopIn]
  rfl

theorem nzmaskOf_clip {op : OpId} (h : (f.op op).opcode ≠ .multiequal) (nz : Masks)
    (out : VarnodeId) (clip clip' : Bool) :
    f.nzmaskOf dom nz op out clip = f.nzmaskOf dom nz op out clip' := by
  unfold nzmaskOf opNzmaskLocal
  rw [withNzm_op, if_neg h, if_neg h]

variable (f)

/-- The bottom-up pass descends into input `slot` of `op`: it is not a clipped back edge. -/
def Unclipped (op : OpId) (slot : ℕ) : Prop :=
  ¬ ((f.op op).opcode = .multiequal ∧ f.isLoopIn dom op slot = true)

/-- The output's mask is the transfer of masks `R` which are the current ones, or for a written
input possibly the one it had when `calc_nzmask` was called. -/
def Justified (nz : Masks) (op : OpId) : Prop :=
  ∀ out, (f.op op).output = some out → ∃ R : Masks,
    (∀ v ∈ (f.op op).inrefs, R v = nz v ∨ (f.vn v).written = true ∧ R v = (f.vn v).nzm) ∧
    nz out = f.nzmaskOf dom R op out false

end Funcdata

open Funcdata

/-- `op` has left the stack. -/
def DfsDone (marked : List OpId) (stack : List (OpId × ℕ)) (op : OpId) : Prop :=
  op ∈ marked ∧ ∀ k, (op, k) ∉ stack

/-- The invariant of the bottom-up pass over the graph `f`. -/
structure DfsInv (f : Funcdata) (dom : Dominators) (nz : Masks) (marked : List OpId)
    (stack : List (OpId × ℕ)) : Prop where
  stack_marked : ∀ p ∈ stack, p.1 ∈ marked
  nodup : (stack.map Prod.fst).Nodup
  leaf : ∀ v, (f.vn v).written = false → nz v = (f.vn v).nzm ∨ nz v = f.leafMask v
  once : ∀ v, (f.vn v).written = true → nz v = (f.vn v).nzm ∨
    ∃ op, DfsDone marked stack op ∧ (f.op op).output = some v
  visited : ∀ op ∈ marked, (f.op op).opcode ≠ .multiequal → ∀ slot v,
    (f.op op).input slot = some v → (f.vn v).written = false →
    (∀ k, (op, k) ∈ stack → slot < k) → nz v = f.leafMask v
  just : ∀ op, DfsDone marked stack op → (f.op op).opcode ≠ .multiequal → f.Justified dom nz op

namespace NzmaskDfs

variable {dom : Dominators} {s : NzmaskDfs} {op : OpId} {slot : ℕ} {rest : List (OpId × ℕ)}

theorem step_finish (hs : s.stack = (op, slot) :: rest) (hin : (s.f.op op).input slot = none) :
    s.step dom = { s.finish dom op with stack := rest } := by
  simp only [step, hs, hin]

theorem step_clip {v : VarnodeId} (hs : s.stack = (op, slot) :: rest)
    (hin : (s.f.op op).input slot = some v)
    (hclip : (s.f.op op).opcode = .multiequal ∧ s.f.isLoopIn dom op slot = true) :
    s.step dom = { s with stack := (op, slot + 1) :: rest } := by
  simp only [step, hs, hin, hclip.1, hclip.2, beq_self_eq_true, Bool.and_self, if_true]

theorem step_visit {v : VarnodeId} (hs : s.stack = (op, slot) :: rest)
    (hin : (s.f.op op).input slot = some v)
    (hclip : ¬ ((s.f.op op).opcode = .multiequal ∧ s.f.isLoopIn dom op slot = true)) :
    s.step dom = visitInput { s with stack := (op, slot + 1) :: rest } v := by
  simp only [step, hs, hin]
  rw [if_neg (by simpa only [Bool.and_eq_true, beq_iff_eq] using hclip)]

theorem visitInput_leaf {v : VarnodeId} (h : (s.f.vn v).written = false) :
    s.visitInput v = { s with f := s.f.setNzm v (s.f.leafMask v) } := by
  simp only [visitInput, h, Bool.not_false, if_true]

theorem visitInput_seen {v : VarnodeId} (h : (s.f.vn v).written = true)
    (hd : ∀ d, (s.f.vn v).defOp = some d → d ∈ s.marked) : s.visitInput v = s := by
  unfold visitInput
  rw [h]
  cases hdef : (s.f.vn v).defOp with
  | none => rfl
  | some d => simp only [Bool.not_true, Bool.false_eq_true, if_false, if_pos (hd d hdef)]

theorem visitInput_push {v : VarnodeId} {d : OpId} (h : (s.f.vn v).written = true)
    (hd : (s.f.vn v).defOp = some d) (hm : d ∉ s.marked) :
    s.visitInput v = { s with marked := d :: s.marked, stack := (d, 0) :: s.stack } := by
  simp only [visitInput, h, hd, Bool.not_true, Bool.false_eq_true, if_false, if_neg hm]

theorem finish_none (h : (s.f.op op).output = none) : s.finish dom op = s := by
  simp only [finish, h]

theorem finish_some {out : VarnodeId} (h : (s.f.op op).output = some out) :
    s.finish dom op = { s with f := s.f.setNzm out (s.f.opNzmaskLocal dom op out true) } := by
  simp only [finish, h]

end NzmaskDfs

section Phase1

variable {f : Funcdata} {dom : Dominators} {nz : Masks} {marked : List OpId}
  {stack : List (OpId × ℕ)}

theorem DfsInv.init : DfsInv f dom (fun v => (f.vn v).nzm) [] [] where
  stack_marked := by simp
  nodup := by simp
  leaf _ _ := .inl rfl
  once _ _ := .inl rfl
  visited := by simp
  just op h := absurd h.1 (by simp)

/-- A newly marked op goes on the stack. -/
theorem DfsInv.push (h : DfsInv f dom nz marked stack) {op : OpId} (hop : op ∉ marked) :
    DfsInv f dom nz (op :: marked) ((op, 0) :: stack) := by
  have hdone : ∀ o, DfsDone (op :: marked) ((op, 0) :: stack) o → DfsDone marked stack o := by
    rintro o ⟨hm, hs⟩
    have hne : o ≠ op := fun he => hs 0 (he ▸ List.mem_cons_self)
    exact ⟨(List.mem_cons.mp hm).resolve_left hne, fun k hk => hs k (List.mem_cons_of_mem _ hk)⟩
  have hdone' : ∀ o, DfsDone marked stack o → DfsDone (op :: marked) ((op, 0) :: stack) o := by
    rintro o ⟨hm, hs⟩
    refine ⟨List.mem_cons_of_mem _ hm, fun k hk => ?_⟩
    rcases List.mem_cons.mp hk with he | hk
    · exact hop ((Prod.mk.inj he).1 ▸ hm)
    · exact hs k hk
  constructor
  · intro p hp
    rcases List.mem_cons.mp hp with rfl | hp
    · exact List.mem_cons_self
    · exact List.mem_cons_of_mem _ (h.stack_marked p hp)
  · rw [List.map_cons, List.nodup_cons]
    refine ⟨fun hmem => ?_, h.nodup⟩
    obtain ⟨p, hp, rfl⟩ := List.mem_map.mp hmem
    exact hop (h.stack_marked p hp)
  · exact h.leaf
  · exact fun v hv => (h.once v hv).imp id fun ⟨o, ho, hout⟩ => ⟨o, hdone' o ho, hout⟩
  · intro o ho hphi slot v hslot hv hprog
    rcases List.mem_cons.mp ho with rfl | ho
    · exact absurd (hprog 0 List.mem_cons_self) (Nat.not_lt_zero _)
    · exact h.visited o ho hphi slot v hslot hv fun k hk => hprog k (List.mem_cons_of_mem _ hk)
  · exact fun o ho => h.just o (hdone o ho)

/-- The top of the stack moves past input `slot`; a leaf there has its mask by then. -/
theorem DfsInv.advance {op : OpId} {slot : ℕ} {rest : List (OpId × ℕ)}
    (h : DfsInv f dom nz marked ((op, slot) :: rest))
    (hleaf : ∀ v, (f.op op).opcode ≠ .multiequal → (f.op op).input slot = some v →
      (f.vn v).written = false → nz v = f.leafMask v) :
    DfsInv f dom nz marked ((op, slot + 1) :: rest) := by
  have hdone : ∀ o, DfsDone marked ((op, slot) :: rest) o ↔
      DfsDone marked ((op, slot + 1) :: rest) o := by
    intro o
    simp only [DfsDone, List.mem_cons, Prod.mk.injEq, not_or, not_and]
    refine and_congr_right fun _ => ⟨fun hs k => ?_, fun hs k => ?_⟩
    · exact ⟨fun he => absurd rfl ((hs slot).1 he), (hs k).2⟩
    · exact ⟨fun he => absurd rfl ((hs (slot + 1)).1 he), (hs k).2⟩
  constructor
  · intro p hp
    rcases List.mem_cons.mp hp with rfl | hp
    · exact h.stack_marked (op, slot) List.mem_cons_self
    · exact h.stack_marked p (List.mem_cons_of_mem _ hp)
  · exact h.nodup
  · exact h.leaf
  · exact fun v hv => (h.once v hv).imp id fun ⟨o, ho, hout⟩ => ⟨o, (hdone o).mp ho, hout⟩
  · intro o ho hphi sl v hsl hv hprog
    by_cases he : o = op ∧ sl = slot
    · obtain ⟨rfl, rfl⟩ := he
      exact hleaf v hphi hsl hv
    · refine h.visited o ho hphi sl v hsl hv fun k hk => ?_
      rcases List.mem_cons.mp hk with hk | hk
      · obtain ⟨rfl, rfl⟩ := Prod.mk.inj hk
        have := hprog (k + 1) List.mem_cons_self
        have : sl ≠ k := fun hs => he ⟨rfl, hs⟩
        omega
      · exact hprog k (List.mem_cons_of_mem _ hk)
  · exact fun o ho => h.just o ((hdone o).mpr ho)

/-- A leaf gets its mask: the ops that are done had it already. -/
theorem DfsInv.setLeaf (hwf : f.SsaWf) (h : DfsInv f dom nz marked stack) {v : VarnodeId}
    (hv : (f.vn v).written = false) :
    DfsInv f dom (Function.update nz v (f.leafMask v)) marked stack := by
  have hkeep : ∀ u, nz u = f.leafMask u → Function.update nz v (f.leafMask v) u = f.leafMask u := by
    intro u hu
    by_cases huv : u = v
    · rw [huv, Function.update_self]
    · rwa [Function.update_of_ne huv]
  constructor
  · exact h.stack_marked
  · exact h.nodup
  · intro u hu
    by_cases huv : u = v
    · exact .inr (by rw [huv, Function.update_self])
    · simpa only [Function.update_of_ne huv] using h.leaf u hu
  · intro u hu
    have huv : u ≠ v := fun he => by rw [he, hv] at hu; cases hu
    simpa only [Function.update_of_ne huv] using h.once u hu
  · exact fun o ho hphi sl u hsl hu hprog => hkeep u (h.visited o ho hphi sl u hsl hu hprog)
  · intro o ho hphi out hout
    obtain ⟨R, hR, hm⟩ := h.just o ho hphi out hout
    have hov : out ≠ v := fun he => by rw [← he, (hwf.output o out hout).1] at hv; cases hv
    refine ⟨R, fun u hu => (hR u hu).imp (fun hRu => ?_) id, by rwa [Function.update_of_ne hov]⟩
    by_cases huv : u = v
    · obtain ⟨sl, hsl⟩ := List.mem_iff_getElem?.mp hu
      rw [hRu, huv, Function.update_self]
      exact h.visited o ho.1 hphi sl v (huv ▸ hsl) hv fun k hk => absurd hk (ho.2 k)
    · rwa [Function.update_of_ne huv]

theorem DfsInv.done_pop {op : OpId} {slot : ℕ} {rest : List (OpId × ℕ)}
    (h : DfsInv f dom nz marked ((op, slot) :: rest)) (o : OpId) :
    DfsDone marked rest o ↔ DfsDone marked ((op, slot) :: rest) o ∨ o = op := by
  have hn := h.nodup
  rw [List.map_cons, List.nodup_cons] at hn
  constructor
  · rintro ⟨hm, hs⟩
    by_cases he : o = op
    · exact .inr he
    · refine .inl ⟨hm, fun k hk => ?_⟩
      rcases List.mem_cons.mp hk with hk | hk
      · exact he (Prod.mk.inj hk).1
      · exact hs k hk
  · rintro (⟨hm, hs⟩ | rfl)
    · exact ⟨hm, fun k hk => hs k (List.mem_cons_of_mem _ hk)⟩
    · exact ⟨h.stack_marked (o, slot) List.mem_cons_self,
        fun k hk => hn.1 (List.mem_map.mpr ⟨(o, k), hk, rfl⟩)⟩

/-- The leaf inputs of an op that is popped have their masks. -/
theorem DfsInv.visited_pop {op : OpId} {slot : ℕ} {rest : List (OpId × ℕ)}
    (h : DfsInv f dom nz marked ((op, slot) :: rest)) (hend : (f.op op).input slot = none) :
    ∀ o ∈ marked, (f.op o).opcode ≠ .multiequal → ∀ sl v, (f.op o).input sl = some v →
      (f.vn v).written = false → (∀ k, (o, k) ∈ rest → sl < k) → nz v = f.leafMask v := by
  intro o ho hphi sl v hsl hv hprog
  refine h.visited o ho hphi sl v hsl hv fun k hk => ?_
  rcases List.mem_cons.mp hk with hk | hk
  · obtain ⟨rfl, rfl⟩ := Prod.mk.inj hk
    have hlen := List.getElem?_eq_none_iff.mp hend
    have hlt := (List.getElem?_eq_some_iff.mp hsl).1
    omega
  · exact hprog k hk

theorem DfsInv.pop {op : OpId} {slot : ℕ} {rest : List (OpId × ℕ)}
    (h : DfsInv f dom nz marked ((op, slot) :: rest)) (hend : (f.op op).input slot = none)
    (hout : (f.op op).output = none) : DfsInv f dom nz marked rest := by
  have hn := h.nodup
  rw [List.map_cons, List.nodup_cons] at hn
  constructor
  · exact fun p hp => h.stack_marked p (List.mem_cons_of_mem _ hp)
  · exact hn.2
  · exact h.leaf
  · exact fun v hv => (h.once v hv).imp id fun ⟨o, ho, he⟩ => ⟨o, (h.done_pop o).mpr (.inl ho), he⟩
  · exact h.visited_pop hend
  · intro o ho hphi
    rcases (h.done_pop o).mp ho with ho | rfl
    · exact h.just o ho hphi
    · intro out he
      rw [hout] at he
      cases he

/-- An op that is popped gets its mask: no op read another mask there than the one on entry. -/
theorem DfsInv.finish (hwf : f.SsaWf) {op : OpId} {slot : ℕ} {rest : List (OpId × ℕ)}
    (h : DfsInv f dom nz marked ((op, slot) :: rest)) (hend : (f.op op).input slot = none)
    {out : VarnodeId} (hout : (f.op op).output = some out) :
    DfsInv f dom (Function.update nz out (f.nzmaskOf dom nz op out true)) marked rest := by
  have hn := h.nodup
  rw [List.map_cons, List.nodup_cons] at hn
  obtain ⟨hwr, hdef⟩ := hwf.output op out hout
  have hentry : nz out = (f.vn out).nzm := by
    rcases h.once out hwr with he | ⟨o, ho, he⟩
    · exact he
    · have : o = op := Option.some.inj ((hwf.output o out he).2.symm.trans hdef)
      exact absurd List.mem_cons_self (this ▸ ho.2 slot)
  have hleaf : ∀ v, (f.vn v).written = false → v ≠ out := fun v hv he => by
    rw [he, hwr] at hv; cases hv
  -- a mask read before is the current one, or the entry mask of `out`
  have hread : ∀ {o : OpId} {R : Masks},
      (∀ v ∈ (f.op o).inrefs, R v = nz v ∨ (f.vn v).written = true ∧ R v = (f.vn v).nzm) →
      ∀ v ∈ (f.op o).inrefs, R v = Function.update nz out (f.nzmaskOf dom nz op out true) v ∨
        (f.vn v).written = true ∧ R v = (f.vn v).nzm := by
    intro o R hR v hv
    by_cases hvo : v = out
    · subst hvo
      exact .inr ⟨hwr, (hR v hv).elim (fun he => he.trans hentry) And.right⟩
    · rw [Function.update_of_ne hvo]
      exact hR v hv
  constructor
  · exact fun p hp => h.stack_marked p (List.mem_cons_of_mem _ hp)
  · exact hn.2
  · intro v hv
    rw [Function.update_of_ne (hleaf v hv)]
    exact h.leaf v hv
  · intro v hv
    by_cases hvo : v = out
    · exact .inr ⟨op, (h.done_pop op).mpr (.inr rfl), hvo ▸ hout⟩
    · rw [Function.update_of_ne hvo]
      exact (h.once v hv).imp id fun ⟨o, ho, he⟩ => ⟨o, (h.done_pop o).mpr (.inl ho), he⟩
  · intro o ho hphi sl v hsl hv hprog
    rw [Function.update_of_ne (hleaf v hv)]
    exact h.visited_pop hend o ho hphi sl v hsl hv hprog
  · intro o ho hphi out' hout'
    rcases (h.done_pop o).mp ho with ho | rfl
    · obtain ⟨R, hR, hm⟩ := h.just o ho hphi out' hout'
      have hne : out' ≠ out := fun he => by
        have : o = op := Option.some.inj ((hwf.output o out' hout').2.symm.trans (he ▸ hdef))
        exact absurd List.mem_cons_self (this ▸ ho.2 slot)
      exact ⟨R, hread hR, by rwa [Function.update_of_ne hne]⟩
    · obtain rfl : out = out' := Option.some.inj (hout.symm.trans hout')
      exact ⟨nz, hread fun v _ => .inl rfl, by
        rw [Function.update_self]; exact nzmaskOf_clip dom hphi nz out true false⟩

/-- One turn of the bottom-up pass on masks, marked ops and stack. -/
inductive DfsTurn (f : Funcdata) (dom : Dominators) (nz : Masks) (marked : List OpId) :
    List (OpId × ℕ) → Masks → List OpId → List (OpId × ℕ) → Prop
  | pop {op slot rest} : (f.op op).input slot = none → (f.op op).output = none →
      DfsTurn f dom nz marked ((op, slot) :: rest) nz marked rest
  | finish {op slot rest out} : (f.op op).input slot = none → (f.op op).output = some out →
      DfsTurn f dom nz marked ((op, slot) :: rest)
        (Function.update nz out (f.nzmaskOf dom nz op out true)) marked rest
  | clip {op slot rest v} : (f.op op).input slot = some v → ¬ f.Unclipped dom op slot →
      DfsTurn f dom nz marked ((op, slot) :: rest) nz marked ((op, slot + 1) :: rest)
  | leaf {op slot rest v} : (f.op op).input slot = some v → f.Unclipped dom op slot →
      (f.vn v).written = false →
      DfsTurn f dom nz marked ((op, slot) :: rest) (Function.update nz v (f.leafMask v)) marked
        ((op, slot + 1) :: rest)
  | seen {op slot rest v} : (f.op op).input slot = some v → f.Unclipped dom op slot →
      (f.vn v).written = true → (∀ d, (f.vn v).defOp = some d → d ∈ marked) →
      DfsTurn f dom nz marked ((op, slot) :: rest) nz marked ((op, slot + 1) :: rest)
  | push {op slot rest v d} : (f.op op).input slot = some v → f.Unclipped dom op slot →
      (f.vn v).written = true → (f.vn v).defOp = some d → d ∉ marked →
      DfsTurn f dom nz marked ((op, slot) :: rest) nz (d :: marked)
        ((d, 0) :: (op, slot + 1) :: rest)

theorem NzmaskDfs.step_turn (f : Funcdata) (dom : Dominators) (nz : Masks) (marked : List OpId)
    (top : OpId × ℕ) (rest : List (OpId × ℕ)) :
    ∃ nz' marked' stack', NzmaskDfs.step dom ⟨f.withNzm nz, marked, top :: rest⟩ =
      ⟨f.withNzm nz', marked', stack'⟩ ∧ DfsTurn f dom nz marked (top :: rest) nz' marked' stack' := by
  obtain ⟨op, slot⟩ := top
  cases hin : (f.op op).input slot with
  | none =>
    rw [NzmaskDfs.step_finish rfl hin]
    cases hout : (f.op op).output with
    | none =>
      rw [NzmaskDfs.finish_none hout]
      exact ⟨nz, marked, rest, rfl, .pop hin hout⟩
    | some out =>
      rw [NzmaskDfs.finish_some hout, setNzm_withNzm]
      exact ⟨_, marked, rest, rfl, .finish hin hout⟩
  | some v =>
    by_cases hu : (f.op op).opcode = .multiequal ∧ f.isLoopIn dom op slot = true
    · rw [NzmaskDfs.step_clip rfl hin hu]
      exact ⟨nz, marked, _, rfl, .clip hin (not_not.mpr hu)⟩
    rw [NzmaskDfs.step_visit rfl hin hu]
    by_cases hw : (f.vn v).written = true
    · by_cases hd : ∀ d, (f.vn v).defOp = some d → d ∈ marked
      · rw [NzmaskDfs.visitInput_seen hw hd]
        exact ⟨nz, marked, _, rfl, .seen hin hu hw hd⟩
      · simp only [not_forall] at hd
        obtain ⟨d, hd, hm⟩ := hd
        rw [NzmaskDfs.visitInput_push hw hd hm]
        exact ⟨nz, d :: marked, _, rfl, .push hin hu hw hd hm⟩
    · rw [Bool.not_eq_true] at hw
      rw [NzmaskDfs.visitInput_leaf hw, setNzm_withNzm]
      exact ⟨_, marked, _, rfl, .leaf hin hu hw⟩

theorem DfsTurn.marked_subset {stack' : List (OpId × ℕ)} {nz' : Masks} {marked' : List OpId}
    (h : DfsTurn f dom nz marked stack nz' marked' stack') : marked ⊆ marked' := by
  cases h with
  | push => exact List.subset_cons_self _ _
  | _ => exact List.Subset.refl _

section Rule

variable {P : Masks → List OpId → List (OpId × ℕ) → Prop}
  (hturn : ∀ {nz marked stack nz' marked' stack'}, P nz marked stack →
    DfsTurn f dom nz marked stack nz' marked' stack' → P nz' marked' stack')
  (hseed : ∀ {nz marked op}, P nz marked [] → op ∉ marked → P nz (op :: marked) [(op, 0)])

include hturn in
/-- What every turn keeps holds when the stack is empty. -/
theorem NzmaskDfs.run_invariant (h : P nz marked stack) {fuel : ℕ} {s : NzmaskDfs}
    (hrun : NzmaskDfs.run dom fuel ⟨f.withNzm nz, marked, stack⟩ = some s) :
    ∃ nz' marked', s = ⟨f.withNzm nz', marked', []⟩ ∧ P nz' marked' [] ∧ marked ⊆ marked' := by
  induction fuel generalizing nz marked stack with
  | zero =>
    simp only [NzmaskDfs.run, Option.ite_none_right_eq_some, Option.some.injEq] at hrun
    obtain ⟨rfl, rfl⟩ := hrun
    exact ⟨nz, marked, rfl, h, List.Subset.refl _⟩
  | succ fuel ih =>
    cases stack with
    | nil =>
      cases hrun
      exact ⟨nz, marked, rfl, h, List.Subset.refl _⟩
    | cons top rest =>
      obtain ⟨nz₁, marked₁, stack₁, he, ht⟩ := NzmaskDfs.step_turn f dom nz marked top rest
      unfold NzmaskDfs.run at hrun
      rw [if_neg (List.cons_ne_nil _ _), he] at hrun
      obtain ⟨nz', marked', hs, h', hsub⟩ := ih (hturn h ht) hrun
      exact ⟨nz', marked', hs, h', List.Subset.trans ht.marked_subset hsub⟩

include hturn hseed in
/-- What every turn and every seed keeps holds after phase 1, which marks every seed. -/
theorem NzmaskDfs.seeds_invariant {fuel : ℕ} (ops : List OpId) (h : P nz marked [])
    {s : NzmaskDfs}
    (hrun : ops.foldlM (NzmaskDfs.seed dom fuel) ⟨f.withNzm nz, marked, []⟩ = some s) :
    ∃ nz' marked', s = ⟨f.withNzm nz', marked', []⟩ ∧ P nz' marked' [] ∧ marked ⊆ marked' ∧
      ops ⊆ marked' := by
  induction ops generalizing nz marked with
  | nil =>
    cases hrun
    exact ⟨nz, marked, rfl, h, List.Subset.refl _, List.nil_subset _⟩
  | cons op ops ih =>
    simp only [List.foldlM_cons, Option.bind_eq_bind, Option.bind_eq_some_iff] at hrun
    obtain ⟨s₁, hs₁, hrun⟩ := hrun
    have hop : ∃ nz₁ marked₁, s₁ = ⟨f.withNzm nz₁, marked₁, []⟩ ∧ P nz₁ marked₁ [] ∧
        marked ⊆ marked₁ ∧ op ∈ marked₁ := by
      unfold NzmaskDfs.seed at hs₁
      split_ifs at hs₁ with hm
      · cases hs₁
        exact ⟨nz, marked, rfl, h, List.Subset.refl _, hm⟩
      · obtain ⟨nz₁, marked₁, he, h₁, hsub⟩ := run_invariant hturn (hseed h hm) hs₁
        exact ⟨nz₁, marked₁, he, h₁, fun o ho => hsub (List.mem_cons_of_mem _ ho),
          hsub List.mem_cons_self⟩
    obtain ⟨nz₁, marked₁, rfl, h₁, hsub, hop⟩ := hop
    obtain ⟨nz', marked', he, h', hsub', hops⟩ := ih h₁ hrun
    exact ⟨nz', marked', he, h', List.Subset.trans hsub hsub', List.cons_subset.mpr ⟨hsub' hop, hops⟩⟩

end Rule

/-- One turn of the bottom-up pass keeps the invariant. -/
theorem DfsInv.turn (hwf : f.SsaWf) {nz' : Masks} {marked' : List OpId}
    {stack' : List (OpId × ℕ)} (h : DfsInv f dom nz marked stack)
    (ht : DfsTurn f dom nz marked stack nz' marked' stack') : DfsInv f dom nz' marked' stack' := by
  -- a written input needs no leaf mask
  have hskip : ∀ {op : OpId} {slot : ℕ} {v : VarnodeId}, (f.op op).input slot = some v →
      (f.vn v).written = true → ∀ u, (f.op op).opcode ≠ .multiequal →
      (f.op op).input slot = some u → (f.vn u).written = false → nz u = f.leafMask u := by
    intro op slot v hin hw u _ hu hf
    rw [hin, Option.some.injEq] at hu
    rw [← hu, hw] at hf
    cases hf
  cases ht with
  | pop hin hout => exact h.pop hin hout
  | finish hin hout => exact h.finish hwf hin hout
  | clip _ hclip => exact h.advance fun _ hphi => absurd (not_not.mp hclip).1 hphi
  | leaf hin _ hw =>
    refine (h.setLeaf hwf hw).advance fun u _ hu _ => ?_
    rw [hin, Option.some.injEq] at hu
    rw [← hu, Function.update_self]
  | seen hin _ hw _ => exact h.advance (hskip hin hw)
  | push hin _ hw _ hm => exact (h.advance (hskip hin hw)).push hm

/-- What phase 1 leaves behind. -/
theorem nzmaskPhase1_spec (hwf : f.SsaWf) {fuel : ℕ} {s : NzmaskDfs}
    (hrun : f.nzmaskPhase1 dom fuel = some s) : ∃ nz, s.f = f.withNzm nz ∧
      (∀ v, (f.vn v).written = false → nz v = (f.vn v).nzm ∨ nz v = f.leafMask v) ∧
      ∀ op ∈ f.allOps, (f.op op).opcode ≠ .multiequal → f.Justified dom nz op ∧
        ∀ v ∈ (f.op op).inrefs, (f.vn v).written = false → nz v = f.leafMask v := by
  obtain ⟨nz, marked, rfl, h, -, hall⟩ := NzmaskDfs.seeds_invariant
    (P := DfsInv f dom) (DfsInv.turn hwf) (fun h hop => h.push hop) f.allOps DfsInv.init hrun
  refine ⟨nz, rfl, h.leaf, fun op hop hphi => ⟨?_, fun v hv hw => ?_⟩⟩
  · exact h.just op ⟨hall hop, by simp⟩ hphi
  · obtain ⟨slot, hslot⟩ := List.mem_iff_getElem?.mp hv
    exact h.visited op (hall hop) hphi slot v hslot hw (by simp)

end Phase1

section Phase2

/-- The worklist phase on masks alone: re-evaluate `op`, push the readers of its output if its
mask changed. -/
def nzmaskProcess (f : Funcdata) (dom : Dominators) (op : OpId) (nz : Masks) :
    Masks × List OpId :=
  match (f.op op).output with
  | none => (nz, [])
  | some out =>
    if f.nzmaskOf dom nz op out false ≠ nz out then
      (Function.update nz out (f.nzmaskOf dom nz op out false), (f.vn out).descend.reverse)
    else (nz, [])

variable {f : Funcdata} {dom : Dominators}

theorem nzmaskProcess_cases (f : Funcdata) (dom : Dominators) (op : OpId) (nz : Masks) :
    (nzmaskProcess f dom op nz = (nz, []) ∧ ∀ out, (f.op op).output = some out →
      nz out = f.nzmaskOf dom nz op out false) ∨
    ∃ out, (f.op op).output = some out ∧ f.nzmaskOf dom nz op out false ≠ nz out ∧
      nzmaskProcess f dom op nz = (Function.update nz out (f.nzmaskOf dom nz op out false),
        (f.vn out).descend.reverse) := by
  unfold nzmaskProcess
  cases ho : (f.op op).output with
  | none => exact .inl ⟨rfl, nofun⟩
  | some out =>
    by_cases hm : f.nzmaskOf dom nz op out false ≠ nz out
    · exact .inr ⟨out, rfl, hm, if_pos hm⟩
    · refine .inl ⟨if_neg hm, fun out' h => ?_⟩
      rw [not_not] at hm
      exact Option.some.inj h ▸ hm.symm

theorem NzmaskWork.step_eq (f : Funcdata) (dom : Dominators) (nz : Masks) (l : List OpId) :
    NzmaskWork.step dom ⟨f.withNzm nz, l⟩ =
      ⟨f.withNzm (Worklist.step (nzmaskProcess f dom) (nz, l)).1,
        (Worklist.step (nzmaskProcess f dom) (nz, l)).2⟩ := by
  cases l with
  | nil => rfl
  | cons op rest =>
    unfold NzmaskWork.step Worklist.step nzmaskProcess
    simp only [withNzm_op]
    cases ho : (f.op op).output with
    | none => rfl
    | some out =>
      simp only [withNzm_nzm, withNzm_descend, setNzm_withNzm]
      change (if f.nzmaskOf dom nz op out false ≠ nz out then _ else _) = _
      split_ifs <;> rfl

/-- A run of the worklist phase is a run of the worklist algorithm on masks. -/
theorem NzmaskWork.run_eq {fuel : ℕ} {nz : Masks} {l : List OpId} {s : NzmaskWork}
    (h : NzmaskWork.run dom fuel ⟨f.withNzm nz, l⟩ = some s) : ∃ n,
      s.f = f.withNzm ((Worklist.step (nzmaskProcess f dom))^[n] (nz, l)).1 ∧
      ((Worklist.step (nzmaskProcess f dom))^[n] (nz, l)).2 = [] := by
  induction fuel generalizing nz l with
  | zero =>
    simp only [NzmaskWork.run, Option.ite_none_right_eq_some, Option.some.injEq] at h
    obtain ⟨rfl, rfl⟩ := h
    exact ⟨0, rfl, rfl⟩
  | succ fuel ih =>
    unfold NzmaskWork.run at h
    split_ifs at h with hl
    · obtain rfl : l = [] := hl
      cases h
      exact ⟨0, rfl, rfl⟩
    · rw [NzmaskWork.step_eq] at h
      obtain ⟨n, h1, h2⟩ := ih h
      exact ⟨n + 1, h1, h2⟩

/-- What the worklist phase keeps: a MULTIEQUAL not on the list is the union of its inputs, any
other op not on the list is justified. -/
def NzmaskStable (f : Funcdata) (dom : Dominators) (nz : Masks) (op : OpId) : Prop :=
  op ∈ f.allOps → ((f.op op).opcode = .multiequal → ∀ out, (f.op op).output = some out →
    nz out = f.nzmaskOf dom nz op out false) ∧
  ((f.op op).opcode ≠ .multiequal → f.Justified dom nz op)

theorem update_eq_of_notMem {ids : List VarnodeId} {v : VarnodeId} (m : U64) (nz : Masks)
    (h : v ∉ ids) : ∀ u ∈ ids, nz u = Function.update nz v m u := by
  intro u hu
  have hne : u ≠ v := fun he => h (he ▸ hu)
  rw [Function.update_of_ne hne]

/-- Changing the mask of a varnode an op neither reads nor writes leaves it stable. -/
theorem NzmaskStable.update {nz : Masks} {op : OpId} (h : NzmaskStable f dom nz op)
    {v : VarnodeId} (hread : v ∉ (f.op op).inrefs) (hwrite : (f.op op).output ≠ some v) (m : U64) :
    NzmaskStable f dom (Function.update nz v m) op := by
  have hne := update_eq_of_notMem m nz hread
  have hout_ne : ∀ out, (f.op op).output = some out → out ≠ v := fun out ho he =>
    hwrite (he ▸ ho)
  intro hop
  refine ⟨fun hphi out hout => ?_, fun hphi out hout => ?_⟩
  · rw [Function.update_of_ne (hout_ne out hout), ← nzmaskOf_congr dom hne]
    exact (h hop).1 hphi out hout
  · obtain ⟨R, hR, hm⟩ := (h hop).2 hphi out hout
    refine ⟨R, fun u hu => ?_, by rwa [Function.update_of_ne (hout_ne out hout)]⟩
    rw [← hne u hu]
    exact hR u hu

theorem nzmaskProcess_stable (hwf : f.SsaWf) (op : OpId) (nz : Masks) (j : OpId)
    (h : NzmaskStable f dom nz j ∨ j = op) :
    NzmaskStable f dom (nzmaskProcess f dom op nz).1 j ∨ j ∈ (nzmaskProcess f dom op nz).2 := by
  rcases nzmaskProcess_cases f dom op nz with ⟨he, heq⟩ | ⟨out, hout, -, he⟩
  · rw [he]
    refine .inl (h.elim id ?_)
    rintro rfl -
    exact ⟨fun _ => heq, fun _ out ho => ⟨nz, fun _ _ => .inl rfl, heq out ho⟩⟩
  · rw [he]
    by_cases hread : out ∈ (f.op j).inrefs
    · exact .inr (List.mem_reverse.mpr (hwf.descend j out hread))
    left
    by_cases hj : j = op
    · subst hj
      have hne := update_eq_of_notMem (f.nzmaskOf dom nz j out false) nz hread
      have hself : ∀ out', (f.op j).output = some out' →
          Function.update nz out (f.nzmaskOf dom nz j out false) out' =
            f.nzmaskOf dom nz j out' false := by
        intro out' hout'
        obtain rfl : out = out' := Option.some.inj (hout.symm.trans hout')
        rw [Function.update_self]
      exact fun _ => ⟨fun _ out' hout' =>
        (hself out' hout').trans (nzmaskOf_congr dom hne out' false),
        fun _ out' hout' => ⟨nz, fun v hv => .inl (hne v hv), hself out' hout'⟩⟩
    · refine (h.resolve_right hj).update hread (fun ho => hj ?_) _
      exact Option.some.inj ((hwf.output j out ho).2.symm.trans (hwf.output op out hout).2)

/-- The worklist phase only writes outputs. -/
theorem nzmaskProcess_leaf (hwf : f.SsaWf) (op : OpId) (nz : Masks) {v : VarnodeId}
    (hv : (f.vn v).written = false) : (nzmaskProcess f dom op nz).1 v = nz v := by
  rcases nzmaskProcess_cases f dom op nz with ⟨he, -⟩ | ⟨out, hout, -, he⟩
  · rw [he]
  · rw [he]
    have hne : v ≠ out := by
      rintro rfl
      rw [(hwf.output op v hout).1] at hv
      cases hv
    exact Function.update_of_ne hne _ _

end Phase2

/-- What `calc_nzmask` leaves behind. -/
theorem calcNzmask_spec {f f' : Funcdata} {dom : Dominators} (hwf : f.SsaWf) {fuel : ℕ}
    (h : f.calcNzmask dom fuel = some f') : ∃ nz, f' = f.withNzm nz ∧
      (∀ v, (f.vn v).written = false → nz v = (f.vn v).nzm ∨ nz v = f.leafMask v) ∧
      (∀ op ∈ f.allOps, (f.op op).opcode ≠ .multiequal →
        ∀ v ∈ (f.op op).inrefs, (f.vn v).written = false → nz v = f.leafMask v) ∧
      ∀ op, NzmaskStable f dom nz op := by
  unfold calcNzmask at h
  simp only [Option.bind_eq_bind, Option.bind_eq_some_iff, Option.pure_def, Option.some.injEq] at h
  obtain ⟨s, hs, w, hw, rfl⟩ := h
  obtain ⟨nz, hf, hleaf, hjust⟩ := nzmaskPhase1_spec hwf hs
  rw [hf] at hw
  obtain ⟨n, hwf', hnil⟩ := NzmaskWork.run_eq hw
  have hseed : ∀ j, NzmaskStable f dom nz j ∨ j ∈ f.nzmaskSeeds := by
    intro j
    by_cases hphi : (f.op j).opcode = .multiequal
    · by_cases hj : j ∈ f.allOps
      · refine .inr (List.mem_reverse.mpr (List.mem_filter.mpr ⟨hj, ?_⟩))
        simpa using hphi
      · exact .inl fun h => absurd h hj
    · exact .inl fun hj => ⟨fun h => absurd h hphi, fun _ => (hjust j hj hphi).1⟩
  have hinv := Worklist.invariant_run (nzmaskProcess f dom)
    (fun nz' => ∀ v, (f.vn v).written = false → nz' v = nz v)
    (fun op nz' h v hv => (nzmaskProcess_leaf hwf op nz' hv).trans (h v hv)) n
    (nz, f.nzmaskSeeds) fun _ _ => rfl
  have hstab := Worklist.stable_run (nzmaskProcess f dom) (fun _ => True)
    (fun _ _ _ => trivial) (fun op nz' j _ hj => nzmaskProcess_stable hwf op nz' j hj) n
    (nz, f.nzmaskSeeds) trivial hseed
  rw [hnil] at hstab
  refine ⟨_, hwf', fun v hv => ?_, fun op hop hphi v hv hw => ?_,
    fun op => (hstab op).resolve_right (by simp)⟩
  · rw [hinv v hv]
    exact hleaf v hv
  · rw [hinv v hw]
    exact (hjust op hop hphi).2 v hv hw

end Mosura
