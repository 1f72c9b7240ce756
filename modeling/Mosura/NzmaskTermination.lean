import Mosura.NzmaskMono

/-! When the worklist phase of `calc_nzmask` empties its list, and a graph on which it never does. -/

namespace Mosura
open Window Funcdata

namespace Funcdata

variable (f : Funcdata) (dom : Dominators)

/-- No cycle of definitions avoids the clipped slots: `rank` grows from each definition to the
ops that read it. -/
def LoopsClipped (rank : OpId → ℕ) : Prop :=
  ∀ op slot v d, (f.op op).input slot = some v → f.Unclipped dom op slot →
    (f.vn v).written = true → (f.vn v).defOp = some d → rank d < rank op

/-- A graph all of whose ops with an output are p-code in its blocks. -/
structure TypedGraph : Prop extends f.SsaWf where
  inBlocks : ∀ op out, (f.op op).output = some out → op ∈ f.allOps ∧ (f.op op).dead = false
  defined : ∀ v d, (f.vn v).written = true → (f.vn v).defOp = some d → (f.op d).output = some v
  written : ∀ v, (f.vn v).written = true → ∃ d, (f.vn v).defOp = some d
  inRange : ∀ v, InRange (f.vn v).nzm (f.vn v).size

variable {f dom}

/-- The clipped slots of a MULTIEQUAL do not matter to its clipped mask. -/
theorem nzmaskOf_congr_clip {nz nz' : Masks} {op : OpId}
    (h : ∀ slot v, (f.op op).input slot = some v → f.Unclipped dom op slot → nz v = nz' v)
    (out : VarnodeId) :
    f.nzmaskOf dom nz op out true = f.nzmaskOf dom nz' op out true := by
  by_cases hphi : (f.op op).opcode = .multiequal
  · by_cases hn : (f.op op).numInputs = 0
    · unfold nzmaskOf opNzmaskLocal multiequalMask
      rw [withNzm_op, if_pos hphi, if_pos hn, withNzm_op, if_pos hphi, if_pos hn]
      rfl
    · have key : ∀ (m m' : Masks), (∀ slot v, (f.op op).input slot = some v →
          f.Unclipped dom op slot → m v = m' v) → ∀ i,
          (f.nzmaskOf dom m op out true).getLsbD i = true →
            (f.nzmaskOf dom m' op out true).getLsbD i = true := by
        intro m m' hmm i hi
        unfold nzmaskOf opNzmaskLocal at hi ⊢
        rw [withNzm_op, if_pos hphi] at hi ⊢
        rw [multiequalMask_getLsbD dom _ _ (by exact hn)] at hi ⊢
        obtain ⟨slot, hslot, hclip, hb⟩ := hi
        have hin : (f.op op).inrefs[slot]? = some _ := List.getElem?_eq_getElem hslot
        refine ⟨slot, hslot, hclip, ?_⟩
        rw [inVn_of_getElem? (f := f.withNzm m) hin] at hb
        rw [inVn_of_getElem? (f := f.withNzm m') hin, withNzm_nzm, ← hmm slot _ hin ?_]
        · exact hb
        · rintro ⟨-, hl⟩
          rw [withNzm_isLoopIn, hl] at hclip
          cases hclip
      apply BitVec.eq_of_getLsbD_eq
      intro i _
      exact Bool.eq_iff_iff.mpr ⟨key nz nz' h i,
        key nz' nz (fun slot v hv hu => (h slot v hv hu).symm) i⟩
  · refine nzmaskOf_congr dom (fun v hv => ?_) out true
    obtain ⟨slot, hslot⟩ := List.mem_iff_getElem?.mp hv
    exact h slot v hslot fun hcl => hphi hcl.1

end Funcdata

/-- The invariant of the bottom-up pass where loops are clipped: an op that is done has the mask
its inputs have now. -/
structure DfsFixed (f : Funcdata) (dom : Dominators) (rank : OpId → ℕ) (nz : Masks)
    (marked : List OpId) (stack : List (OpId × ℕ)) : Prop where
  sorted : (stack.map Prod.fst).Pairwise fun a b => rank a < rank b
  leaf : ∀ op ∈ marked, ∀ slot v, (f.op op).input slot = some v → f.Unclipped dom op slot →
    (∀ k, (op, k) ∈ stack → slot < k) → (f.vn v).written = false → nz v = f.leafMask v
  seen : ∀ op ∈ marked, ∀ slot v d, (f.op op).input slot = some v → f.Unclipped dom op slot →
    (∀ k, (op, k) ∈ stack → slot < k) → (f.vn v).written = true → (f.vn v).defOp = some d →
    d ∈ marked
  below : ∀ op, DfsDone marked stack op → ∀ slot v d, (f.op op).input slot = some v →
    f.Unclipped dom op slot → (f.vn v).written = true → (f.vn v).defOp = some d →
    DfsDone marked stack d
  fixed : ∀ op, DfsDone marked stack op → ∀ out, (f.op op).output = some out →
    nz out = f.nzmaskOf dom nz op out true

section Fixed

variable {f : Funcdata} {dom : Dominators} {rank : OpId → ℕ} {nz : Masks} {marked : List OpId}
  {stack : List (OpId × ℕ)}

theorem DfsFixed.init : DfsFixed f dom rank (fun v => (f.vn v).nzm) [] [] where
  sorted := .nil
  leaf := by simp
  seen := by simp
  below _ h := absurd h.1 (by simp)
  fixed _ h := absurd h.1 (by simp)

theorem dfsDone_push {op : OpId} (hop : op ∉ marked) (o : OpId) :
    DfsDone (op :: marked) ((op, 0) :: stack) o ↔ DfsDone marked stack o := by
  constructor
  · rintro ⟨hm, hs⟩
    have hne : o ≠ op := fun he => hs 0 (he ▸ List.mem_cons_self)
    exact ⟨(List.mem_cons.mp hm).resolve_left hne, fun k hk => hs k (List.mem_cons_of_mem _ hk)⟩
  · rintro ⟨hm, hs⟩
    refine ⟨List.mem_cons_of_mem _ hm, fun k hk => ?_⟩
    rcases List.mem_cons.mp hk with he | hk
    · exact hop ((Prod.mk.inj he).1 ▸ hm)
    · exact hs k hk

theorem dfsDone_advance {op : OpId} {slot : ℕ} {top rest : List (OpId × ℕ)} (o : OpId) :
    DfsDone marked (top ++ (op, slot + 1) :: rest) o ↔
      DfsDone marked (top ++ (op, slot) :: rest) o := by
  simp only [DfsDone, List.mem_append, List.mem_cons, Prod.mk.injEq, not_or, not_and]
  refine and_congr_right fun _ => ⟨fun hs k => ?_, fun hs k => ?_⟩
  · exact ⟨(hs k).1, fun he => absurd rfl ((hs (slot + 1)).2.1 he), (hs k).2.2⟩
  · exact ⟨(hs k).1, fun he => absurd rfl ((hs slot).2.1 he), (hs k).2.2⟩

theorem DfsFixed.push (h : DfsFixed f dom rank nz marked stack) {op : OpId} (hop : op ∉ marked)
    (hrank : ∀ p ∈ stack, rank op < rank p.1) :
    DfsFixed f dom rank nz (op :: marked) ((op, 0) :: stack) := by
  have hprog : ∀ {o : OpId} {slot : ℕ}, o ∈ op :: marked →
      (∀ k, (o, k) ∈ (op, 0) :: stack → slot < k) → o ∈ marked ∧ ∀ k, (o, k) ∈ stack → slot < k := by
    intro o slot ho hp
    rcases List.mem_cons.mp ho with rfl | ho
    · exact absurd (hp 0 List.mem_cons_self) (Nat.not_lt_zero _)
    · exact ⟨ho, fun k hk => hp k (List.mem_cons_of_mem _ hk)⟩
  constructor
  · rw [List.map_cons, List.pairwise_cons]
    refine ⟨fun o ho => ?_, h.sorted⟩
    obtain ⟨p, hp, rfl⟩ := List.mem_map.mp ho
    exact hrank p hp
  · intro o ho slot v hv hu hp hw
    exact h.leaf o (hprog ho hp).1 slot v hv hu (hprog ho hp).2 hw
  · intro o ho slot v d hv hu hp hw hd
    exact List.mem_cons_of_mem _ (h.seen o (hprog ho hp).1 slot v d hv hu (hprog ho hp).2 hw hd)
  · intro o ho slot v d hv hu hw hd
    exact (dfsDone_push hop d).mpr (h.below o ((dfsDone_push hop o).mp ho) slot v d hv hu hw hd)
  · exact fun o ho => h.fixed o ((dfsDone_push hop o).mp ho)

/-- An op moves past input `slot`, whose mask or definition has been seen. -/
theorem DfsFixed.advance {op : OpId} {slot : ℕ} {t rest : List (OpId × ℕ)}
    (h : DfsFixed f dom rank nz marked (t ++ (op, slot) :: rest))
    (hleaf : ∀ v, (f.op op).input slot = some v → f.Unclipped dom op slot →
      (f.vn v).written = false → nz v = f.leafMask v)
    (hseen : ∀ v d, (f.op op).input slot = some v → f.Unclipped dom op slot →
      (f.vn v).written = true → (f.vn v).defOp = some d → d ∈ marked) :
    DfsFixed f dom rank nz marked (t ++ (op, slot + 1) :: rest) := by
  have hprog : ∀ {o : OpId} {sl : ℕ}, (∀ k, (o, k) ∈ t ++ (op, slot + 1) :: rest → sl < k) →
      (o = op ∧ sl = slot) ∨ ∀ k, (o, k) ∈ t ++ (op, slot) :: rest → sl < k := by
    intro o sl hp
    by_cases he : o = op ∧ sl = slot
    · exact .inl he
    · refine .inr fun k hk => ?_
      rcases List.mem_append.mp hk with hk | hk
      · exact hp k (List.mem_append_left _ hk)
      rcases List.mem_cons.mp hk with hk | hk
      · obtain ⟨rfl, rfl⟩ := Prod.mk.inj hk
        have := hp (k + 1) (List.mem_append_right _ List.mem_cons_self)
        have : sl ≠ k := fun hs => he ⟨rfl, hs⟩
        omega
      · exact hp k (List.mem_append_right _ (List.mem_cons_of_mem _ hk))
  constructor
  · simpa only [List.map_append, List.map_cons] using h.sorted
  · intro o ho sl v hv hu hp hw
    rcases hprog hp with ⟨rfl, rfl⟩ | hp
    · exact hleaf v hv hu hw
    · exact h.leaf o ho sl v hv hu hp hw
  · intro o ho sl v d hv hu hp hw hd
    rcases hprog hp with ⟨rfl, rfl⟩ | hp
    · exact hseen v d hv hu hw hd
    · exact h.seen o ho sl v d hv hu hp hw hd
  · intro o ho sl v d hv hu hw hd
    exact (dfsDone_advance d).mpr (h.below o ((dfsDone_advance o).mp ho) sl v d hv hu hw hd)
  · exact fun o ho => h.fixed o ((dfsDone_advance o).mp ho)

/-- A leaf gets its mask: an op that is done read that mask already. -/
theorem DfsFixed.setLeaf (hwf : f.SsaWf) (h : DfsFixed f dom rank nz marked stack) {v : VarnodeId}
    (hv : (f.vn v).written = false) :
    DfsFixed f dom rank (Function.update nz v (f.leafMask v)) marked stack := by
  have hkeep : ∀ u, nz u = f.leafMask u → Function.update nz v (f.leafMask v) u = f.leafMask u := by
    intro u hu
    by_cases huv : u = v
    · rw [huv, Function.update_self]
    · rwa [Function.update_of_ne huv]
  refine ⟨h.sorted, fun o ho sl u hu hcl hp hw => hkeep u (h.leaf o ho sl u hu hcl hp hw),
    h.seen, h.below, fun o ho out hout => ?_⟩
  have hov : out ≠ v := fun he => by rw [← he, (hwf.output o out hout).1] at hv; cases hv
  rw [Function.update_of_ne hov, h.fixed o ho out hout]
  refine nzmaskOf_congr_clip (fun sl u hu hcl => ?_) out
  by_cases huv : u = v
  · rw [huv, Function.update_self]
    exact h.leaf o ho.1 sl v (huv ▸ hu) hcl (fun k hk => absurd hk (ho.2 k)) hv
  · rw [Function.update_of_ne huv]

/-- The definitions an op that is popped reads are done. -/
theorem DfsFixed.defs_done (hrank : f.LoopsClipped dom rank) {op : OpId} {slot : ℕ}
    {rest : List (OpId × ℕ)} (hinv : DfsInv f dom nz marked ((op, slot) :: rest))
    (h : DfsFixed f dom rank nz marked ((op, slot) :: rest)) (hend : (f.op op).input slot = none)
    {sl : ℕ} {v : VarnodeId} {d : OpId} (hv : (f.op op).input sl = some v)
    (hu : f.Unclipped dom op sl) (hw : (f.vn v).written = true) (hd : (f.vn v).defOp = some d) :
    DfsDone marked ((op, slot) :: rest) d := by
  have hs := h.sorted
  rw [List.map_cons, List.pairwise_cons] at hs
  have hlt := hrank op sl v d hv hu hw hd
  constructor
  · refine h.seen op (hinv.stack_marked _ List.mem_cons_self) sl v d hv hu (fun k hk => ?_) hw hd
    rcases List.mem_cons.mp hk with hk | hk
    · obtain ⟨-, rfl⟩ := Prod.mk.inj hk
      have hlen := List.getElem?_eq_none_iff.mp hend
      have hslot := (List.getElem?_eq_some_iff.mp hv).1
      omega
    · exact absurd (hs.1 op (List.mem_map.mpr ⟨(op, k), hk, rfl⟩)) (lt_irrefl _)
  · intro k hk
    rcases List.mem_cons.mp hk with hk | hk
    · rw [(Prod.mk.inj hk).1] at hlt
      exact absurd hlt (lt_irrefl _)
    · exact absurd (hs.1 d (List.mem_map.mpr ⟨(d, k), hk, rfl⟩)) hlt.asymm

/-- An op is popped; only its own output may get another mask. -/
theorem DfsFixed.pop (hwf : f.SsaWf) (hrank : f.LoopsClipped dom rank) {op : OpId} {slot : ℕ}
    {rest : List (OpId × ℕ)} (hinv : DfsInv f dom nz marked ((op, slot) :: rest))
    (h : DfsFixed f dom rank nz marked ((op, slot) :: rest)) (hend : (f.op op).input slot = none)
    {nz' : Masks} (hother : ∀ v, (f.op op).output ≠ some v → nz' v = nz v)
    (hown : ∀ out, (f.op op).output = some out → nz' out = f.nzmaskOf dom nz op out true) :
    DfsFixed f dom rank nz' marked rest := by
  have hleaf : ∀ v, (f.vn v).written = false → nz' v = nz v := fun v hv =>
    hother v fun ho => by rw [(hwf.output op v ho).1] at hv; cases hv
  -- progress past a slot is the same, as `op` has read all its inputs
  have hprog : ∀ {o : OpId} {sl : ℕ} {v : VarnodeId}, (f.op o).input sl = some v →
      (∀ k, (o, k) ∈ rest → sl < k) → ∀ k, (o, k) ∈ (op, slot) :: rest → sl < k := by
    intro o sl v hsl hp k hk
    rcases List.mem_cons.mp hk with hk | hk
    · obtain ⟨rfl, rfl⟩ := Prod.mk.inj hk
      have hlen := List.getElem?_eq_none_iff.mp hend
      have hlt := (List.getElem?_eq_some_iff.mp hsl).1
      omega
    · exact hp k hk
  have hdefs : ∀ o, DfsDone marked rest o → ∀ sl v d, (f.op o).input sl = some v →
      f.Unclipped dom o sl → (f.vn v).written = true → (f.vn v).defOp = some d →
      DfsDone marked ((op, slot) :: rest) d := by
    intro o ho sl v d hv hu hw hd
    rcases (hinv.done_pop o).mp ho with ho | rfl
    · exact h.below o ho sl v d hv hu hw hd
    · exact h.defs_done hrank hinv hend hv hu hw hd
  have hnotop : ¬ DfsDone marked ((op, slot) :: rest) op := fun hd => hd.2 slot List.mem_cons_self
  have hread : ∀ o, DfsDone marked rest o → ∀ sl v, (f.op o).input sl = some v →
      f.Unclipped dom o sl → nz v = nz' v := by
    intro o ho sl v hv hu
    refine (hother v fun hout => hnotop ?_).symm
    obtain ⟨hw, hd⟩ := hwf.output op v hout
    exact hdefs o ho sl v op hv hu hw hd
  have hs := h.sorted
  rw [List.map_cons, List.pairwise_cons] at hs
  constructor
  · exact hs.2
  · intro o ho sl v hv hu hp hw
    rw [hleaf v hw]
    exact h.leaf o ho sl v hv hu (hprog hv hp) hw
  · exact fun o ho sl v d hv hu hp hw hd => h.seen o ho sl v d hv hu (hprog hv hp) hw hd
  · exact fun o ho sl v d hv hu hw hd =>
      (hinv.done_pop d).mpr (.inl (hdefs o ho sl v d hv hu hw hd))
  · intro o ho out hout
    rw [← nzmaskOf_congr_clip (hread o ho) out]
    rcases (hinv.done_pop o).mp ho with hd | rfl
    · rw [hother out fun he => hnotop ?_]
      · exact h.fixed o hd out hout
      · obtain rfl : o = op :=
          Option.some.inj ((hwf.output o out hout).2.symm.trans (hwf.output op out he).2)
        exact hd
    · exact hown out hout

/-- One turn of the bottom-up pass keeps the invariant. -/
theorem DfsFixed.turn (hwf : f.SsaWf) (hrank : f.LoopsClipped dom rank) {nz' : Masks}
    {marked' : List OpId} {stack' : List (OpId × ℕ)} (hinv : DfsInv f dom nz marked stack)
    (h : DfsFixed f dom rank nz marked stack)
    (ht : DfsTurn f dom nz marked stack nz' marked' stack') :
    DfsFixed f dom rank nz' marked' stack' := by
  cases ht with
  | pop hin hout =>
    exact h.pop hwf hrank hinv hin (fun _ _ => rfl) fun out ho => by rw [hout] at ho; cases ho
  | finish hin hout =>
    refine h.pop hwf hrank hinv hin (fun v hv => ?_) fun out ho => ?_
    · exact Function.update_of_ne (fun he => hv (by rw [he, hout])) _ _
    · rw [← Option.some.inj (hout.symm.trans ho), Function.update_self]
  | clip hin hclip =>
    exact DfsFixed.advance (t := []) h (fun v _ hu => absurd hu hclip)
      fun v d _ hu => absurd hu hclip
  | leaf hin _ hw =>
    refine DfsFixed.advance (t := []) (h.setLeaf hwf hw) (fun u hu _ _ => ?_)
      fun u _ hu _ hwr => ?_
    · rw [← Option.some.inj (hin.symm.trans hu), Function.update_self]
    · rw [← Option.some.inj (hin.symm.trans hu), hw] at hwr
      cases hwr
  | seen hin _ hw hd =>
    refine DfsFixed.advance (t := []) h (fun u hu _ hf => ?_) fun u d hu _ _ => ?_
    · rw [← Option.some.inj (hin.symm.trans hu), hw] at hf
      cases hf
    · rw [← Option.some.inj (hin.symm.trans hu)]
      exact hd d
  | @push op slot rest v d hin hu hw hd hm =>
    have hlt := hrank op slot v d hin hu hw hd
    have hs := h.sorted
    rw [List.map_cons, List.pairwise_cons] at hs
    have hpush : DfsFixed f dom rank nz (d :: marked) ([(d, 0)] ++ (op, slot) :: rest) := by
      refine h.push hm fun p hp => ?_
      rcases List.mem_cons.mp hp with rfl | hp
      · exact hlt
      · exact hlt.trans (hs.1 p.1 (List.mem_map_of_mem hp))
    refine hpush.advance (fun u hu _ hf => ?_) fun u d' hu _ _ hd' => ?_
    · rw [← Option.some.inj (hin.symm.trans hu), hw] at hf
      cases hf
    · rw [← Option.some.inj (hin.symm.trans hu), hd] at hd'
      exact Option.some.inj hd' ▸ List.mem_cons_self

end Fixed

section Phase2

variable {f : Funcdata} {dom : Dominators} {rank : OpId → ℕ} {nz : Masks}

/-- The invariant of the worklist phase: masks are in range and only grow towards their
transfers. -/
structure Ascending (f : Funcdata) (dom : Dominators) (nz : Masks) : Prop where
  below : ∀ op out, (f.op op).output = some out → Below (nz out) (f.nzmaskOf dom nz op out false)
  inRange : ∀ v, InRange (nz v) (f.vn v).size
  rem : ∀ op ∈ f.allOps, (f.op op).opcode = .intRem → ((f.withNzm nz).inVn op 1).nzm ≠ 0

variable {nz' : Masks}

theorem raised_inVn (h : ∀ v, Below (nz v) (nz' v))
    (hleaf : ∀ v, (f.vn v).constant = true → nz v = nz' v) (op : OpId) (slot : ℕ) :
    Raised ((f.withNzm nz).inVn op slot) ((f.withNzm nz').inVn op slot) := by
  unfold inVn
  rw [withNzm_op, withNzm_op]
  cases (f.op op).input slot with
  | none => exact ⟨rfl, rfl, rfl, Below.refl _, fun _ => rfl⟩
  | some v => exact ⟨rfl, rfl, rfl, h v, hleaf v⟩

/-- The full transfer of an op is monotone in the masks of its inputs. -/
theorem Ascending.mono (hf : f.TypedGraph) (h : Ascending f dom nz) (hle : ∀ v, Below (nz v) (nz' v))
    (hleaf : ∀ v, (f.vn v).constant = true → nz v = nz' v) {op : OpId} {out : VarnodeId}
    (hout : (f.op op).output = some out) :
    Below (f.nzmaskOf dom nz op out false) (f.nzmaskOf dom nz' op out false) := by
  have hr := raised_inVn hle hleaf op
  by_cases hphi : (f.op op).opcode = .multiequal
  · by_cases hn : (f.op op).numInputs = 0
    · unfold nzmaskOf opNzmaskLocal multiequalMask
      rw [withNzm_op, if_pos hphi, if_pos hn, withNzm_op, if_pos hphi, if_pos hn]
      exact Below.refl _
    · intro i hi
      unfold nzmaskOf opNzmaskLocal at hi ⊢
      rw [withNzm_op, if_pos hphi] at hi ⊢
      rw [multiequalMask_getLsbD dom _ _ (by exact hn)] at hi ⊢
      obtain ⟨slot, hslot, hcl, hb⟩ := hi
      exact ⟨slot, hslot, hcl, (hr slot).below i hb⟩
  obtain ⟨hop, hdead⟩ := hf.inBlocks op out hout
  unfold nzmaskOf opNzmaskLocal
  rw [withNzm_op, if_neg hphi, withNzm_op, if_neg hphi]
  refine nzmaskTransfer_mono (hr 0) (hr 1) (fun hor => ?_) (h.rem op hop)
  have hs := (hf.opWf op hop hdead out hout).sizes
  have hb := @withNzm_inVn_inRange f nz op (fun v _ => h.inRange v) 1
  have hsz : ((f.withNzm nz).inVn op 1).size = (f.vn out).size := by
    refine withNzm_inVn_size ?_
    rcases hor with hc | hc
    · rw [hc] at hs
      rw [show _ = [_, _] from hs]
      rfl
    · rw [hc] at hs
      rw [show _ = [_, _] from hs]
      rfl
  rw [hsz] at hb
  exact hb

/-- One turn of the worklist phase raises a mask, if it changes one. -/
theorem Ascending.process (hf : f.TypedGraph) (h : Ascending f dom nz) (op : OpId) :
    Ascending f dom (nzmaskProcess f dom op nz).1 := by
  rcases nzmaskProcess_cases f dom op nz with ⟨he, -⟩ | ⟨out, hout, -, he⟩
  · rw [he]
    exact h
  rw [he]
  change Ascending f dom (Function.update nz out (f.nzmaskOf dom nz op out false))
  have hle : ∀ v, Below (nz v) (Function.update nz out (f.nzmaskOf dom nz op out false) v) := by
    intro v
    by_cases hv : v = out
    · rw [hv, Function.update_self]
      exact h.below op out hout
    · rw [Function.update_of_ne hv]
      exact Below.refl _
  obtain ⟨hop, hdead⟩ := hf.inBlocks op out hout
  have hconst : ∀ v, (f.vn v).constant = true →
      nz v = Function.update nz out (f.nzmaskOf dom nz op out false) v := by
    intro v hv
    rw [Function.update_of_ne]
    rintro rfl
    have hw := (hf.output op v hout).1
    rw [(hf.const v hv).1] at hw
    cases hw
  constructor
  · intro o out' hout'
    refine Below.trans ?_ (h.mono hf hle hconst hout')
    by_cases he' : out' = out
    · subst he'
      obtain rfl : o = op :=
        Option.some.inj ((hf.output o out' hout').2.symm.trans (hf.output op out' hout).2)
      rw [Function.update_self]
      exact Below.refl _
    · rw [Function.update_of_ne he']
      exact h.below o out' hout'
  · intro v
    by_cases hv : v = out
    · rw [hv, Function.update_self]
      exact nzmaskOf_inRange dom false (hf.opWf op hop hdead out hout)
        (fun u _ => h.inRange u) (h.rem op hop)
    · rw [Function.update_of_ne hv]
      exact h.inRange v
  · intro o ho hc h0
    refine h.rem o ho hc (Below.antisymm ?_ (Below.zero _))
    rw [← h0]
    exact (raised_inVn hle hconst o 1).below

end Phase2

end Mosura
