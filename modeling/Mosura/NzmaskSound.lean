import Mosura.NzmaskFixpoint

/-! `calc_nzmask` is sound on graphs of Varnodes of at most 8 bytes. -/

namespace Mosura
open Window Funcdata

/-- On narrow operands the window is wide enough, INT_SRIGHT by a huge constant apart. -/
theorem windowOk_of_narrow {code : OpCode} {so : ℕ} {a b : Varnode} (hso : so ≤ 8) (ha : a.size ≤ 8)
    (hsr : code = .intSright → b.constant = true → b.constantValue.toNat < 2 ^ 32) :
    windowOk code so a b := by
  have hposs : ∀ k, 64 ≤ k → ¬ Possible a k := by
    intro k hk h
    unfold Possible at h
    split_ifs at h
    · exact absurd (BitVec.lt_of_getLsbD h) (by omega)
    · omega
  cases code
  case intRight => exact fun _ i _ h64 => hposs _ h64
  case intSright => exact fun _ hc => .inl (hsr rfl hc)
  case intDiv | intRem => exact .inl hso
  case popcount | subpiece => exact .inl ha
  all_goals trivial

/-- The SSA graphs whose masks `calc_nzmask` computes soundly: Varnodes of at most 8 bytes, and no
INT_SRIGHT amount that its truncation to 32 bits changes. -/
structure NarrowGraph (f : Funcdata) : Prop extends f.SsaWf where
  size_le : ∀ v, (f.vn v).size ≤ 8
  sright : ∀ op ∈ f.allOps, (f.op op).opcode = .intSright → (f.inVn op 1).constant = true →
    (f.inVn op 1).constantValue.toNat < 2 ^ 32

/-- The inputs the masks assume: a spacebase register holds an address aligned to 256. -/
def World.Aligned (w : World) (f : Funcdata) : Prop :=
  ∀ v, (f.vn v).constant = false → (f.vn v).written = false → (f.vn v).spacebase = true →
    f.leafValue w v % 256 = 0

/-- Every value of every execution is covered by the mask of its Varnode. -/
def MasksSound (f : Funcdata) (nz : Masks) : Prop :=
  ∀ (view : View) (w : World), w.Aligned f → ∀ s, f.Reachable view w s →
    ∀ v x, s.env v = some x → Covers (nz v) x

section Sound

variable {f : Funcdata} {dom : Dominators} {view : View} {w : World}

theorem leafValue_lt (hwf : f.SsaWf) (v : VarnodeId) :
    f.leafValue w v < 2 ^ (8 * (f.vn v).size) := by
  unfold leafValue
  split_ifs with hc
  · exact (hwf.const v hc).2
  · exact Nat.mod_lt _ (Nat.two_pow_pos _)

theorem leafMask_const (hwf : f.SsaWf) {v : VarnodeId} (hc : (f.vn v).constant = true) :
    f.leafMask v = (f.vn v).constantValue := by
  unfold leafMask
  rw [if_pos hc]
  apply BitVec.eq_of_getLsbD_eq
  intro i hi
  rw [BitVec.getLsbD_and, calcMask_getLsbD]
  by_cases hs : i < 8 * (f.vn v).size
  · simp [hi, hs]
  · have hb : (f.vn v).constantValue.getLsbD i = false :=
      Nat.testBit_lt_two_pow ((hwf.const v hc).2.trans_le
        (Nat.pow_le_pow_right two_pos (not_lt.mp hs)))
    rw [hb, Bool.false_and]

/-- The mask of a leaf covers its value. -/
theorem leafMask_covers (hwf : f.SsaWf) (ha : w.Aligned f) {v : VarnodeId}
    (hv : (f.vn v).written = false) : Covers (f.leafMask v) (f.leafValue w v) := by
  by_cases hc : (f.vn v).constant = true
  · rw [leafMask_const hwf hc, leafValue, if_pos hc]
    exact covers_self _
  have hfull := covers_calcMask (leafValue_lt (w := w) hwf v)
  unfold leafMask
  rw [if_neg hc]
  split_ifs with hs
  · have hz := ha v (by simpa using hc) hv hs
    rw [covers_iff] at hfull ⊢
    intro i hi hb
    rw [BitVec.getLsbD_and, hfull i hi hb, Bool.true_and, BitVec.getLsbD_not]
    have h8 : 8 ≤ i := by
      by_contra hlt
      have hmod : (f.leafValue w v % 2 ^ 8).testBit i = true := by
        rw [Nat.testBit_mod_two_pow, hb]
        simpa using not_le.mp hlt
      rw [show 2 ^ 8 = 256 from rfl, hz, Nat.zero_testBit] at hmod
      cases hmod
    have hff : (0xff#64).getLsbD i = false := by
      rw [show (0xff#64) = BitVec.ofNat 64 (2 ^ 8 - 1) from rfl, BitVec.getLsbD_ofNat,
        Nat.testBit_two_pow_sub_one]
      simp [show ¬ i < 8 by omega]
    simp only [hi, hff, decide_true, Bool.not_false, Bool.and_self]
  · exact hfull

/-- The values of an execution fit their Varnodes, and leaves keep theirs. -/
structure EnvOk (f : Funcdata) (w : World) (env : VarnodeId → Option ℕ) : Prop where
  lt : ∀ v x, env v = some x → x < 2 ^ (8 * (f.vn v).size)
  leaf : ∀ v, (f.vn v).written = false → env v = some (f.leafValue w v)

theorem EnvOk.update (hwf : f.SsaWf) {env : VarnodeId → Option ℕ} (h : EnvOk f w env) {op : OpId}
    {out : VarnodeId} {x : ℕ} (hout : (f.op op).output = some out)
    (hx : x < 2 ^ (8 * (f.vn out).size)) : EnvOk f w (Function.update env out (some x)) := by
  constructor
  · intro v y hv
    by_cases hvo : v = out
    · subst hvo
      rw [Function.update_self, Option.some.injEq] at hv
      exact hv ▸ hx
    · rw [Function.update_of_ne hvo] at hv
      exact h.lt v y hv
  · intro v hv
    have hvo : v ≠ out := by
      rintro rfl
      rw [(hwf.output op v hout).1] at hv
      cases hv
    rw [Function.update_of_ne hvo]
    exact h.leaf v hv

/-- A MULTIEQUAL passes on the value of an input of its own size. -/
theorem PhiValue.exists_input (hwf : f.SsaWf) {b : BlockId} {slot : ℕ}
    {env : VarnodeId → Option ℕ} {v : VarnodeId} {x : ℕ}
    (h : f.PhiValue (f.block b).ops slot env v (some x)) :
    ∃ op ∈ f.allOps, (f.op op).opcode = .multiequal ∧ (f.op op).output = some v ∧ ∃ u,
      (f.op op).input slot = some u ∧ env u = some x ∧ (f.vn u).size = (f.vn v).size := by
  obtain ⟨op, hop, hphi, hdead, hout, hx⟩ := h
  have hall := mem_allOps_of_mem_block hop
  obtain ⟨u, hu, hux⟩ := Option.bind_eq_some_iff.mp hx.symm
  have hs := (hwf.opWf op hall hdead v hout).sizes
  rw [hphi] at hs
  exact ⟨op, hall, hphi, hout, u, hu, hux,
    hs _ (List.mem_map_of_mem (List.mem_of_getElem? hu))⟩

theorem fit_of_envOk {env : VarnodeId → Option ℕ} (h : EnvOk f w env) {op : OpId} {args : List ℕ}
    (ha : (f.op op).inrefs.mapM env = some args) : (f.operands op args).Fit := by
  have hf := forall₂_of_mapM ha
  clear ha
  unfold operands Operands.Fit
  generalize (f.op op).inrefs = ids at hf
  induction hf with
  | nil => simp
  | cons hx _ ih =>
    simp only [List.zipWith_cons_cons, List.mem_cons, forall_eq_or_imp]
    exact ⟨h.lt _ _ hx, ih⟩

theorem Funcdata.Reachable.envOk (hwf : f.SsaWf) {s : State} (h : f.Reachable view w s) :
    EnvOk f w s.env := by
  have hreach := h
  induction h with
  | init =>
    constructor
    · intro v x hv
      simp only [initState, initEnv, Option.ite_none_left_eq_some, Option.some.injEq] at hv
      exact hv.2 ▸ leafValue_lt hwf v
    · intro v hv
      simp only [initState, initEnv, hv, Bool.false_eq_true, if_false]
  | @step s s' hs hst ih =>
    have ih := ih hs
    rcases step_cases hst with ⟨op, rest, _, _, rfl⟩ | ⟨op, rest, hr, hdead, hphi, he⟩ |
      ⟨b, slot, _, _, rfl⟩
    · exact ih
    · obtain ⟨args, hargs, _, _, _, ⟨_, henv⟩ | ⟨out, x, hout, hx, henv⟩⟩ := execOp_cases he
      · exact henv ▸ ih
      · rw [henv]
        have hall := hs.rest_subset op (hr ▸ List.mem_cons_self)
        have hopwf := hwf.opWf op hall hdead out hout
        have hlen := List.Forall₂.length_eq (forall₂_of_mapM hargs)
        refine ih.update hwf hout (OpResult.lt ?_ hopwf.out_pos (fit_of_envOk ih hargs)
          (opValue_result hphi hx))
        rw [operands_map_fst hlen]
        exact hopwf.sizes
    · constructor
      · intro v x hv
        rcases phiEnv_cases (f := f) (f.block b).ops slot s.env v with he | hp
        · exact ih.lt v x (he ▸ hv)
        · change f.phiEnv (f.block b).ops slot s.env v = some x at hv
          rw [hv] at hp
          obtain ⟨_, _, _, _, u, _, hu, hsz⟩ := PhiValue.exists_input hwf hp
          exact hsz ▸ ih.lt u x hu
      · intro v hv
        rcases phiEnv_cases (f := f) (f.block b).ops slot s.env v with he | ⟨op, _, _, _, hout, _⟩
        · exact he.trans (ih.leaf v hv)
        · rw [(hwf.output op v hout).1] at hv
          cases hv

theorem withNzm_inVn_const (R : Masks) (op : OpId) (slot : ℕ) :
    ((f.withNzm R).inVn op slot).constant = (f.inVn op slot).constant ∧
      ((f.withNzm R).inVn op slot).constantValue = (f.inVn op slot).constantValue ∧
      ((f.withNzm R).inVn op slot).size = (f.inVn op slot).size := by
  unfold inVn
  rw [withNzm_op]
  cases (f.op op).input slot <;> exact ⟨rfl, rfl, rfl⟩

theorem withNzm_opWf {op : OpId} {out : VarnodeId} (h : f.OpWf op out) (R : Masks) :
    (f.withNzm R).OpWf op out where
  sizes := h.sizes
  out_pos := h.out_pos
  in_pos := h.in_pos
  offset hc := (withNzm_inVn_const R op 1).1.trans (h.offset hc)

theorem inVn_size_le (hng : NarrowGraph f) (op : OpId) (slot : ℕ) :
    (f.inVn op slot).size ≤ 8 := by
  unfold inVn
  cases (f.op op).input slot with
  | none => exact Nat.zero_le _
  | some v => exact hng.size_le v

/-- An op on masks that cover its inputs gives a mask that covers its result. -/
theorem nzmaskOf_covers (hng : NarrowGraph f) {R : Masks} {op : OpId} {out : VarnodeId}
    {env : VarnodeId → Option ℕ} {events : List Event} {args : List ℕ} {x : ℕ}
    (hop : op ∈ f.allOps) (hdead : (f.op op).dead = false) (hphi : (f.op op).opcode ≠ .multiequal)
    (hout : (f.op op).output = some out) (henv : EnvOk f w env)
    (hargs : (f.op op).inrefs.mapM env = some args)
    (hcov : ∀ v ∈ (f.op op).inrefs, ∀ y, env v = some y → Covers (R v) y)
    (hconst : ∀ v ∈ (f.op op).inrefs, (f.vn v).constant = true → R v = (f.vn v).constantValue)
    (hx : f.opValue view w events op args (f.vn out).size = some x) :
    Covers (f.nzmaskOf dom R op out false) x := by
  have hopwf := hng.opWf op hop hdead out hout
  obtain ⟨hc1, hv1, -⟩ := withNzm_inVn_const (f := f) R op 1
  have hxs : (f.withNzm R).InputsOk op args := by
    have hf := forall₂_of_mapM hargs
    unfold InputsOk
    rw [withNzm_op]
    clear hx hargs
    generalize (f.op op).inrefs = ids at hf hcov hconst
    induction hf with
    | nil => exact .nil
    | @cons v y ids args hy _ ih =>
      refine .cons ⟨henv.lt v y hy, hcov v (by simp) y hy, fun hc => ?_⟩
        (ih (fun u hu => hcov u (List.mem_cons_of_mem _ hu))
          fun u hu => hconst u (List.mem_cons_of_mem _ hu))
      have hc : (f.vn v).constant = true := hc
      refine ⟨hconst v (by simp) hc, ?_⟩
      have hleaf := henv.leaf v (hng.const v hc).1
      rw [hy, Option.some.injEq, leafValue, if_pos hc] at hleaf
      exact hleaf
  refine opNzmaskLocal_covers dom (withNzm_opWf hopwf R) ((hng.size_le out).trans (by norm_num))
    (fun v _ => (hng.size_le v).trans (by norm_num)) hxs ?_ (opValue_result hphi hx)
  refine windowOk_of_narrow (hng.size_le out)
    ((withNzm_inVn_const R op 0).2.2.trans_le (inVn_size_le hng op 0)) fun hc hb => ?_
  rw [hv1]
  exact hng.sright op hop hc (hc1 ▸ hb)

end Sound

/-- If the masks on entry cover every value of every execution, so do those on return. -/
theorem masksSound_calcNzmask {f f' : Funcdata} {dom : Dominators} {fuel : ℕ} (hng : NarrowGraph f)
    (hentry : MasksSound f fun v => (f.vn v).nzm) (h : f.calcNzmask dom fuel = some f') :
    MasksSound f fun v => (f'.vn v).nzm := by
  obtain ⟨nz, rfl, hleaf, hinputs, hstable⟩ := calcNzmask_spec hng.toSsaWf h
  intro view w hal s hs
  simp only [withNzm_nzm]
  induction hs with
  | init =>
    intro v x hv
    have hw : (f.vn v).written = false := by
      by_contra hw
      simp [initState, initEnv, hw] at hv
    rcases hleaf v hw with he | he
    · rw [he]
      exact hentry view w hal _ .init v x hv
    · simp only [initState, initEnv, hw, Bool.false_eq_true, if_false, Option.some.injEq] at hv
      rw [he, ← hv]
      exact leafMask_covers hng.toSsaWf hal hw
  | @step s s' hs hst ih =>
    rcases step_cases hst with ⟨op, rest, _, _, rfl⟩ | ⟨op, rest, hr, hdead, hphi, he⟩ |
      ⟨b, slot, _, _, rfl⟩
    · exact ih
    · obtain ⟨args, hargs, _, _, _, ⟨_, henv⟩ | ⟨out, y, hout, hy, henv⟩⟩ := execOp_cases he
      · rwa [henv]
      · intro v x hv
        rw [henv] at hv
        by_cases hvo : v = out
        · subst hvo
          rw [Function.update_self, Option.some.injEq] at hv
          subst hv
          have hop := hs.rest_subset op (hr ▸ List.mem_cons_self)
          obtain ⟨R, hR, hm⟩ := (hstable op hop).2 hphi v hout
          rw [hm]
          refine nzmaskOf_covers hng hop hdead hphi hout (hs.envOk hng.toSsaWf) hargs ?_ ?_ hy
          · intro u hu z hz
            rcases hR u hu with hRu | ⟨_, hRu⟩
            · exact hRu ▸ ih u z hz
            · exact hRu ▸ hentry view w hal s hs u z hz
          · intro u hu hc
            have hw := (hng.const u hc).1
            rcases hR u hu with hRu | ⟨hw', _⟩
            · rw [hRu, hinputs op hop hphi u hu hw, leafMask_const hng.toSsaWf hc]
            · rw [hw] at hw'
              cases hw'
        · rw [Function.update_of_ne hvo] at hv
          exact ih v x hv
    · intro v x hv
      rcases phiEnv_cases (f := f) (f.block b).ops slot s.env v with he | hp
      · exact ih v x (he ▸ hv)
      · change f.phiEnv (f.block b).ops slot s.env v = some x at hv
        rw [hv] at hp
        obtain ⟨op, hop, hphi, hout, u, hu, hux, _⟩ := PhiValue.exists_input hng.toSsaWf hp
        rw [(hstable op hop).1 hphi v hout]
        have hcov := ih u x hux
        rw [covers_iff] at hcov ⊢
        intro i hi hb
        unfold nzmaskOf opNzmaskLocal
        have hlt := (List.getElem?_eq_some_iff.mp hu).1
        rw [withNzm_op, if_pos hphi, multiequalMask_getLsbD dom _ _ (by
          simp only [withNzm_op, PcodeOp.numInputs]; omega)]
        refine ⟨slot, hlt, rfl, ?_⟩
        rw [inVn_of_getElem? (f := f.withNzm nz) hu]
        exact hcov i hi hb

/-- What `calc_nzmask` establishes: the masks cover every value; the mask of a MULTIEQUAL is the
union of its inputs' and any other mask the transfer of masks that are final or were stored on
entry; and each transfer covers its op, whatever the masks of the inputs. -/
structure NzmaskResult (f f' : Funcdata) (dom : Dominators) : Prop where
  sound : MasksSound f fun v => (f'.vn v).nzm
  stable : ∀ op, NzmaskStable f dom (fun v => (f'.vn v).nzm) op
  transfer : ∀ (R : Masks) (op : OpId) (out : VarnodeId), op ∈ f.allOps → (f.op op).dead = false →
    (f.op op).output = some out → (f.withNzm R).NzmaskSound dom op out

theorem calcNzmask_sound {f f' : Funcdata} {dom : Dominators} {fuel : ℕ} (hng : NarrowGraph f)
    (hentry : MasksSound f fun v => (f.vn v).nzm) (h : f.calcNzmask dom fuel = some f') :
    NzmaskResult f f' dom where
  sound := masksSound_calcNzmask hng hentry h
  stable := by
    obtain ⟨nz, rfl, -, -, hstable⟩ := calcNzmask_spec hng.toSsaWf h
    exact hstable
  transfer R op out hop hdead hout xs v hxs hv := by
    obtain ⟨hc1, hv1, -⟩ := withNzm_inVn_const (f := f) R op 1
    refine opNzmaskLocal_covers dom (withNzm_opWf (hng.opWf op hop hdead out hout) R)
      ((hng.size_le out).trans (by norm_num)) (fun v _ => (hng.size_le v).trans (by norm_num)) hxs
      (windowOk_of_narrow (hng.size_le out)
        ((withNzm_inVn_const R op 0).2.2.trans_le (inVn_size_le hng op 0)) fun hc hb => ?_) hv
    rw [hv1]
    exact hng.sright op hop hc (hc1 ▸ hb)

/-- The masks `alloc_varnode` gives. -/
def FreshMasks (f : Funcdata) : Prop :=
  ∀ v, (f.vn v).nzm = if (f.vn v).constant then (f.vn v).constantValue &&& calcMask (f.vn v).size
    else calcMask (f.vn v).size

/-- Fresh masks are sound. -/
theorem FreshMasks.sound {f : Funcdata} (hwf : f.SsaWf) (h : FreshMasks f) :
    MasksSound f fun v => (f.vn v).nzm := by
  intro view w _ s hs v x hx
  simp only [h v]
  have henv := hs.envOk hwf
  split_ifs with hc
  · rw [henv.leaf v (hwf.const v hc).1, Option.some.injEq, leafValue, if_pos hc] at hx
    have hm := leafMask_const hwf hc
    rw [leafMask, if_pos hc] at hm
    rw [hm, ← hx]
    exact covers_self _
  · exact covers_calcMask (henv.lt v x hx)

/-- `v1 = COPY v0` with an input `v0`, which may be a spacebase register. -/
def copyGraph (spacebase : Bool) : Funcdata where
  spaces := SpaceManager.standard false
  vn
    | 0 => { loc := ⟨2, 0x20⟩, size := 8, input := true, insert := true, spacebase := spacebase,
             descend := [0], nzm := calcMask 8 }
    | 1 => { loc := ⟨3, 0⟩, size := 8, written := true, insert := true, defOp := some 0,
             nzm := calcMask 8 }
    | _ => { loc := ⟨3, 8⟩, size := 8, nzm := calcMask 8 }
  numVarnodes := 2
  op
    | 0 => { opcode := .copy, parent := some 0, output := some 1, inrefs := [0] }
    | _ => { opcode := .copy }
  numOps := 1
  blocks := [{ ops := [0] }]

theorem copyGraph_narrow (spacebase : Bool) : NarrowGraph (copyGraph spacebase) where
  opWf op hop _ out hout := by
    obtain rfl : op = 0 := by simpa [allOps, copyGraph] using hop
    obtain rfl : 1 = out := Option.some.inj hout
    exact ⟨rfl, by decide +revert, by decide +revert, nofun⟩
  output op out hout := by
    match op, hout with
    | 0, hout => obtain rfl : 1 = out := Option.some.inj hout; exact ⟨rfl, rfl⟩
  descend op v hv := by
    match op, hv with
    | 0, hv => obtain rfl : v = 0 := by simpa [copyGraph] using hv
               exact List.mem_singleton.mpr rfl
  const v hv := by
    match v, hv with
    | 0, hv | 1, hv | _ + 2, hv => cases hv
  size_le v := by
    match v with
    | 0 | 1 | _ + 2 => exact le_rfl
  sright op hop hc _ := by
    obtain rfl : op = 0 := by simpa [allOps, copyGraph] using hop
    cases hc

theorem copyGraph_fresh (spacebase : Bool) : FreshMasks (copyGraph spacebase) := by
  intro v
  match v with
  | 0 | 1 | _ + 2 => rfl

theorem calcNzmask_copyGraph : ∃ f', (copyGraph false).calcNzmask ⟨[0]⟩ 3 = some f' ∧
    NzmaskResult (copyGraph false) f' ⟨[0]⟩ :=
  ⟨_, rfl, calcNzmask_sound (copyGraph_narrow false)
    ((copyGraph_fresh false).sound (copyGraph_narrow false).toSsaWf)
    (rfl : (copyGraph false).calcNzmask ⟨[0]⟩ 3 = some _)⟩

/-- `p = MULTIEQUAL(0, x)` in a loop, `x` an input whose mask on entry is 0. -/
def staleGraph : Funcdata where
  spaces := SpaceManager.standard false
  vn
    | 0 => { loc := ⟨0, 0⟩, size := 8, constant := true, descend := [0], nzm := 0 }
    | 1 => { loc := ⟨2, 0⟩, size := 8, input := true, insert := true, descend := [0], nzm := 0 }
    | 2 => { loc := ⟨2, 0⟩, size := 8, written := true, insert := true, defOp := some 0,
             nzm := calcMask 8 }
    | _ => { loc := ⟨3, 8⟩, size := 8, nzm := calcMask 8 }
  numVarnodes := 3
  op
    | 0 => { opcode := .multiequal, parent := some 1, output := some 2, inrefs := [0, 1] }
    | _ => { opcode := .copy }
  numOps := 1
  blocks := [{ outEdges := [1] }, { ops := [0], inEdges := [0, 1], outEdges := [1] }]

theorem staleGraph_narrow : NarrowGraph staleGraph where
  opWf op hop _ out hout := by
    obtain rfl : op = 0 := by simpa [allOps, staleGraph] using hop
    obtain rfl : 2 = out := Option.some.inj hout
    exact ⟨(by decide : ∀ s ∈ [8, 8], s = 8), by decide, by decide, nofun⟩
  output op out hout := by
    match op, hout with
    | 0, hout => obtain rfl : 2 = out := Option.some.inj hout; exact ⟨rfl, rfl⟩
  descend op v hv := by
    match op, hv with
    | 0, hv =>
      rcases List.mem_pair.mp hv with rfl | rfl
      · exact List.mem_singleton.mpr rfl
      · exact List.mem_singleton.mpr rfl
  const v hv := by
    match v, hv with
    | 0, _ => exact ⟨rfl, by decide⟩
    | 1, hv | 2, hv | _ + 3, hv => cases hv
  size_le v := by
    match v with
    | 0 | 1 | 2 | _ + 3 => exact le_rfl
  sright op hop hc _ := by
    obtain rfl : op = 0 := by simpa [allOps, staleGraph] using hop
    cases hc

/-- A world where every input is `x`. -/
def worldOf (x : ℕ) : World where
  input _ := x
  value _ _ _ := 0
  keep _ _ := 0
  effect _ _ := 0
  next _ _ := (0, 0)

/-- Two ways the masks fail on narrow graphs: a spacebase register whose low byte is not 0, even
from fresh masks; and masks on entry that are not sound, which stay where the bottom-up pass clips
a MULTIEQUAL, even with all spacebase registers aligned. -/
theorem calcNzmask_unsound :
    (¬ ∀ (f f' : Funcdata) (dom : Dominators) (fuel : ℕ), NarrowGraph f → FreshMasks f →
      f.calcNzmask dom fuel = some f' → ∀ (view : View) (w : World) (s : State),
        f.Reachable view w s → ∀ v x, s.env v = some x → Covers (f'.vn v).nzm x) ∧
    ¬ ∀ (f f' : Funcdata) (dom : Dominators) (fuel : ℕ), NarrowGraph f →
      f.calcNzmask dom fuel = some f' → MasksSound f fun v => (f'.vn v).nzm := by
  constructor
  · intro h
    have hc := h (copyGraph true) _ ⟨[0]⟩ 3 (copyGraph_narrow true) (copyGraph_fresh true) rfl
      (fun _ => none) (worldOf 8) _ .init 0 8 rfl
    exact absurd hc (by decide)
  · intro h
    have hal : (worldOf 1).Aligned staleGraph := by
      intro v _ _ hs
      match v, hs with
      | 0, hs | 1, hs | 2, hs | _ + 3, hs => cases hs
    have hc := h staleGraph _ ⟨[0, 0]⟩ 5 staleGraph_narrow rfl (fun _ => none) (worldOf 1) hal _
      .init 1 1 rfl
    exact absurd hc (by decide)

end Mosura
