import Mosura.Primitives

/-! Definitions and uses stay linked through sequences of edits. -/

namespace Mosura
namespace Funcdata

/-- The cross-links of the graph: `descend` of a varnode is the multiset of the input slots of live
ops that read it, its definition is the op whose output it is, INSERT is set exactly when WRITTEN or
INPUT is, and a constant that is no spacebase has one reader at most. -/
structure DefUse (f : Funcdata) : Prop where
  descend : ∀ v < f.numVarnodes, ∀ op < f.numOps, (f.vn v).descend.count op =
    if (f.op op).dead then 0 else (f.op op).inrefs.count v
  readers : ∀ v < f.numVarnodes, ∀ op ∈ (f.vn v).descend, op < f.numOps
  defs : ∀ v < f.numVarnodes, ∀ op < f.numOps,
    (f.vn v).defOp = some op ↔ (f.op op).output = some v
  insert : ∀ v < f.numVarnodes, (f.vn v).insert = ((f.vn v).written || (f.vn v).input)
  constant : ∀ v < f.numVarnodes, (f.vn v).constant = true → (f.vn v).spacebase = false →
    (f.vn v).descend.length ≤ 1

/-- The books of the readers: `owed v op` is by how much `op` is listed too often in the readers of
`v`. Ids outside the arenas have empty records, dead ops read nothing. -/
structure Books (f : Funcdata) (owed : VarnodeId → OpId → ℤ) : Prop where
  blankVn : ∀ v, f.numVarnodes ≤ v → (f.vn v).descend = [] ∧ (f.vn v).defOp = none
  blankOp : ∀ op, f.numOps ≤ op → (f.op op).inrefs = [] ∧ (f.op op).output = none
  links : ∀ v op, ((f.vn v).descend.count op : ℤ) = (f.op op).inrefs.count v + owed v op
  dead : ∀ op, (f.op op).dead = true → (f.op op).inrefs = []
  defs : ∀ v op, (f.vn v).defOp = some op ↔ (f.op op).output = some v
  insert : ∀ v < f.numVarnodes, (f.vn v).insert = ((f.vn v).written || (f.vn v).input)
  written : ∀ v < f.numVarnodes, (f.vn v).written = (f.vn v).defOp.isSome
  constant : ∀ v < f.numVarnodes, (f.vn v).constant = true → (f.vn v).spacebase = false →
    (f.vn v).descend.length ≤ 1

/-- The books are balanced. -/
def Linked (f : Funcdata) : Prop := f.Books fun _ _ => 0

variable {f : Funcdata} {owed : VarnodeId → OpId → ℤ} {v u : VarnodeId} {op o : OpId}

theorem Linked.count (h : f.Linked) (v : VarnodeId) (op : OpId) :
    (f.vn v).descend.count op = (f.op op).inrefs.count v := by
  have hl := h.links v op
  rw [add_zero] at hl
  exact_mod_cast hl

theorem Linked.mem_descend (h : f.Linked) : op ∈ (f.vn v).descend ↔ v ∈ (f.op op).inrefs := by
  rw [← List.count_pos_iff, h.count, List.count_pos_iff]

theorem Linked.lt_of_mem_inrefs (h : f.Linked) (hv : v ∈ (f.op op).inrefs) : v < f.numVarnodes := by
  by_contra hlt
  have hmem := h.mem_descend.mpr hv
  rw [(h.blankVn v (not_lt.mp hlt)).1] at hmem
  exact absurd hmem List.not_mem_nil

theorem Linked.lt_of_mem_descend (h : f.Linked) (ho : op ∈ (f.vn v).descend) : op < f.numOps := by
  by_contra hlt
  have hmem := h.mem_descend.mp ho
  rw [(h.blankOp op (not_lt.mp hlt)).1] at hmem
  exact absurd hmem List.not_mem_nil

/-- Balanced books are what the cross-links should be. -/
theorem Linked.defUse (h : f.Linked) : f.DefUse where
  descend v _ op _ := by
    rw [h.count]
    split_ifs with hd
    · rw [h.dead op hd]
      rfl
    · rfl
  readers _ _ _ ho := h.lt_of_mem_descend ho
  defs v _ op _ := h.defs v op
  insert := h.insert
  constant := h.constant

/-! What the small edits do to the books. -/

theorem Books.congr (h : f.Books owed) {owed' : VarnodeId → OpId → ℤ}
    (he : ∀ v op, owed v op = owed' v op) : f.Books owed' := by
  have hfun : owed = owed' := by
    funext v op
    exact he v op
  exact hfun ▸ h

/-- Edits of other fields leave the books alone. -/
theorem Books.of_same (h : f.Books owed) {f' : Funcdata} (hv : f'.numVarnodes = f.numVarnodes)
    (ho : f'.numOps = f.numOps)
    (hvn : ∀ v, (f'.vn v).descend = (f.vn v).descend ∧ (f'.vn v).defOp = (f.vn v).defOp ∧
      (f'.vn v).insert = (f.vn v).insert ∧ (f'.vn v).written = (f.vn v).written ∧
      (f'.vn v).input = (f.vn v).input ∧ (f'.vn v).constant = (f.vn v).constant ∧
      (f'.vn v).spacebase = (f.vn v).spacebase)
    (hop : ∀ op, (f'.op op).inrefs = (f.op op).inrefs ∧ (f'.op op).output = (f.op op).output ∧
      (f'.op op).dead = (f.op op).dead) : f'.Books owed where
  blankVn v hlt := by
    rw [(hvn v).1, (hvn v).2.1]
    exact h.blankVn v (hv ▸ hlt)
  blankOp op hlt := by
    rw [(hop op).1, (hop op).2.1]
    exact h.blankOp op (ho ▸ hlt)
  links v op := by
    rw [(hvn v).1, (hop op).1]
    exact h.links v op
  dead op hd := by
    rw [(hop op).2.2] at hd
    rw [(hop op).1]
    exact h.dead op hd
  defs v op := by
    rw [(hvn v).2.1, (hop op).2.1]
    exact h.defs v op
  insert v hlt := by
    obtain ⟨-, -, hi, hw, hin, -, -⟩ := hvn v
    rw [hi, hw, hin]
    exact h.insert v (hv ▸ hlt)
  written v hlt := by
    obtain ⟨-, hd, -, hw, -, -, -⟩ := hvn v
    rw [hw, hd]
    exact h.written v (hv ▸ hlt)
  constant v hlt := by
    obtain ⟨hd, -, -, -, -, hc, hs⟩ := hvn v
    rw [hd, hc, hs]
    exact h.constant v (hv ▸ hlt)

/-- New inputs of a live op, not yet known to the varnodes. -/
theorem Books.setInrefs (h : f.Books owed) (hop : op < f.numOps) (k : PcodeOp → List VarnodeId)
    (hdead : (f.op op).dead = true → k (f.op op) = []) :
    (f.modOp op fun x => { x with inrefs := k x }).Books fun v o =>
      owed v o + if o = op then ((f.op op).inrefs.count v : ℤ) - (k (f.op op)).count v else 0 where
  blankVn := h.blankVn
  blankOp o ho := by
    have hne : o ≠ op := fun he => absurd hop (not_lt.mpr (he ▸ ho))
    rw [modOp_op, if_neg hne]
    exact h.blankOp o ho
  links v o := by
    rw [modOp_vn, modOp_op, h.links v o]
    split_ifs with ho
    · subst ho
      ring
    · ring
  dead o hd := by
    rw [modOp_op] at hd ⊢
    split_ifs at hd ⊢ with ho
    · exact hdead hd
    · exact h.dead o hd
  defs v o := by
    rw [modOp_vn, modOp_op, h.defs v o]
    split_ifs with ho
    · rw [ho]
    · rfl
  insert := h.insert
  written := h.written
  constant := h.constant

/-- Another list of readers for `u`. -/
theorem Books.setDescend (h : f.Books owed) (hu : u < f.numVarnodes) (k : Varnode → List OpId)
    (hconst : (f.vn u).constant = true → (f.vn u).spacebase = false → (k (f.vn u)).length ≤ 1) :
    (f.modVn u fun x => { x with descend := k x }).Books fun v o =>
      owed v o + if v = u then ((k (f.vn u)).count o : ℤ) - (f.vn u).descend.count o else 0 where
  blankVn v hv := by
    have hne : v ≠ u := fun he => absurd hu (not_lt.mpr (he ▸ hv))
    rw [modVn_vn, if_neg hne]
    exact h.blankVn v hv
  blankOp := h.blankOp
  links v o := by
    have hl := h.links v o
    rw [modVn_vn, modVn_op]
    split_ifs with hv
    · subst hv
      linarith
    · linarith
  dead := h.dead
  defs v o := by
    rw [modVn_vn, modVn_op, ← h.defs v o]
    split_ifs with hv
    · rw [hv]
    · rfl
  insert v hv := by
    rw [modVn_vn]
    split_ifs with he
    · exact h.insert u hu
    · exact h.insert v hv
  written v hv := by
    rw [modVn_vn]
    split_ifs with he
    · exact h.written u hu
    · exact h.written v hv
  constant v hv := by
    rw [modVn_vn]
    split_ifs with he
    · exact hconst
    · exact h.constant v hv

theorem Books.eraseDescend (h : f.Books owed) (hu : u < f.numVarnodes)
    (hmem : op ∈ (f.vn u).descend) : (f.eraseDescend u op).Books fun v o =>
      owed v o - if v = u ∧ o = op then 1 else 0 := by
  have hset := h.setDescend hu (fun x => x.descend.erase op) fun hc hs =>
    (List.length_erase_le).trans (h.constant u hu hc hs)
  refine hset.congr fun v o => ?_
  have hpos : 0 < (f.vn u).descend.count op := List.count_pos_iff.mpr hmem
  rw [List.count_erase]
  by_cases hv : v = u
  · subst hv
    by_cases ho : o = op
    · subst ho
      simp only [if_true, BEq.rfl, and_self]
      omega
    · have hne : (op == o) = false := by simpa using Ne.symm ho
      simp only [if_true, hne, ho, and_false, if_false]
      simp
  · simp only [hv, false_and, if_false]
    ring

theorem Books.addDescend (h : f.Books owed) (hu : u < f.numVarnodes) (op : OpId)
    (hconst : (f.vn u).constant = true → (f.vn u).spacebase = false → (f.vn u).descend = []) :
    (f.addDescend u op).Books fun v o => owed v o + if v = u ∧ o = op then 1 else 0 := by
  have hset := h.setDescend hu (fun x => x.descend ++ [op]) fun hc hs => by
    rw [hconst hc hs]
    exact le_rfl
  refine hset.congr fun v o => ?_
  rw [List.count_append, List.count_singleton]
  by_cases hv : v = u
  · subst hv
    by_cases ho : o = op
    · subst ho
      simp
    · have hne : (op == o) = false := by simpa using Ne.symm ho
      simp [hne, ho]
  · simp only [hv, false_and, if_false]

theorem Books.allocVarnode (h : f.Books owed) (size : ℕ) (loc : Address) (c : Bool) :
    (f.allocVarnode size loc c).Books owed where
  blankVn v hv := by
    have hlt : f.numVarnodes < v := hv
    rw [allocVarnode_vn, if_neg hlt.ne']
    exact h.blankVn v hlt.le
  blankOp := h.blankOp
  links v o := by
    have hl := h.links v o
    rw [allocVarnode_vn]
    split_ifs with hv
    · subst hv
      rw [(h.blankVn _ le_rfl).1] at hl
      exact hl
    · exact hl
  dead := h.dead
  defs v o := by
    have hd := h.defs v o
    rw [allocVarnode_vn]
    split_ifs with hv
    · subst hv
      rw [(h.blankVn _ le_rfl).2] at hd
      exact hd
    · exact hd
  insert v hv := by
    rw [allocVarnode_vn]
    split_ifs with he
    · rfl
    · exact h.insert v ((Nat.lt_succ_iff.mp hv).lt_of_ne he)
  written v hv := by
    rw [allocVarnode_vn]
    split_ifs with he
    · rfl
    · exact h.written v ((Nat.lt_succ_iff.mp hv).lt_of_ne he)
  constant v hv := by
    rw [allocVarnode_vn]
    split_ifs with he
    · exact fun _ _ => Nat.zero_le _
    · exact h.constant v ((Nat.lt_succ_iff.mp hv).lt_of_ne he)

/-- A reader may be added to `v`: it is no constant, a spacebase, or has none yet. -/
def CanRead (f : Funcdata) (v : VarnodeId) : Prop :=
  v < f.numVarnodes ∧
    ((f.vn v).constant = true → (f.vn v).spacebase = false → (f.vn v).descend = [])

theorem uniqueConstantFor_vn (f : Funcdata) (v : VarnodeId) {u : VarnodeId}
    (hu : u < f.numVarnodes) : (f.uniqueConstantFor v).1.vn u = f.vn u := by
  rcases uniqueConstantFor_cases f v with h | ⟨-, h⟩
  · rw [h]
  · rw [h]
    change (f.allocVarnode _ _ _).vn u = _
    rw [allocVarnode_vn, if_neg hu.ne]

theorem canRead_fresh (f : Funcdata) (size : ℕ) (loc : Address) (c : Bool) :
    (f.allocVarnode size loc c).CanRead f.numVarnodes := by
  refine ⟨Nat.lt_succ_self _, fun _ _ => ?_⟩
  rw [allocVarnode_vn, if_pos rfl]
  rfl

/-- What is wired in for `v` may get a reader. -/
theorem canRead_uniqueConstantFor (f : Funcdata) (hv : v < f.numVarnodes) :
    (f.uniqueConstantFor v).1.CanRead (f.uniqueConstantFor v).2 := by
  unfold uniqueConstantFor
  split_ifs with hcond
  · refine ⟨hv, fun hc hs => ?_⟩
    rw [hc, hs] at hcond
    simpa using hcond
  · exact canRead_fresh f _ _ true

theorem Books.uniqueConstantFor (h : f.Books owed) (v : VarnodeId) :
    (f.uniqueConstantFor v).1.Books owed := by
  rcases uniqueConstantFor_cases f v with he | ⟨-, he⟩
  · rw [he]
    exact h
  · rw [he]
    exact h.allocVarnode _ _ true

theorem uniqueConstantFor_le (f : Funcdata) (v : VarnodeId) :
    f.numVarnodes ≤ (f.uniqueConstantFor v).1.numVarnodes := (Keeps.uniqueConstantFor f v).le

theorem CanRead.eraseDescend (h : f.CanRead v) (w : VarnodeId) (op : OpId) :
    (f.eraseDescend w op).CanRead v := by
  refine ⟨h.1, ?_⟩
  unfold Funcdata.eraseDescend
  rw [modVn_vn]
  split_ifs with hw
  · subst hw
    intro hc hs
    change (f.vn v).descend.erase op = []
    rw [h.2 hc hs]
    rfl
  · exact h.2

theorem count_set {l : List VarnodeId} {i : ℕ} {old : VarnodeId} (hold : l[i]? = some old)
    (v new : VarnodeId) : ((l.set i new).count v : ℤ) =
      l.count v - (if v = old then 1 else 0) + if v = new then 1 else 0 := by
  obtain ⟨hi, he⟩ := List.getElem?_eq_some_iff.mp hold
  rw [List.count_set hi, he]
  have hpos : v = old → 0 < l.count v := by
    intro hv
    rw [hv, ← he]
    exact List.count_pos_iff.mpr (List.getElem_mem hi)
  simp only [beq_iff_eq, eq_comm (a := old), eq_comm (a := new)]
  split_ifs with hv hn hn
  · have := hpos hv
    omega
  · have := hpos hv
    omega
  · omega
  · omega

theorem Linked.opSetInput (h : f.Linked) {slot : ℕ} (hv : v < f.numVarnodes) (op : OpId) :
    (f.opSetInput op slot v).Linked := by
  unfold Funcdata.opSetInput
  cases hin : (f.op op).input slot with
  | none => exact h
  | some old =>
    dsimp only
    split_ifs with heq
    · exact h
    · have hmem : old ∈ (f.op op).inrefs := List.mem_of_getElem? hin
      have hold := h.lt_of_mem_inrefs hmem
      have hop : op < f.numOps := h.lt_of_mem_descend (h.mem_descend.mpr hmem)
      have hlive : (f.op op).dead = true → False := by
        intro hd
        rw [h.dead op hd] at hmem
        exact List.not_mem_nil hmem
      have hbooks := Books.uniqueConstantFor h v
      have hcan := canRead_uniqueConstantFor f hv
      have hle := uniqueConstantFor_le f v
      have hvn := uniqueConstantFor_vn f v hold
      have hopf := uniqueConstantFor_op f v
      have hn := uniqueConstantFor_numOps f v
      generalize f.uniqueConstantFor v = e at *
      obtain ⟨f', v'⟩ := e
      dsimp only at *
      have hreader : op ∈ (f'.vn old).descend := by
        rw [hvn]
        exact h.mem_descend.mpr hmem
      have herase := hbooks.eraseDescend (hold.trans_le hle) hreader
      have hop' : op < f'.numOps := hop.trans_eq hn.symm
      have hset := herase.setInrefs hop'
        (fun x => x.inrefs.set slot v') fun hd => by
          change (f'.op op).dead = true at hd
          rw [hopf] at hd
          exact (hlive hd).elim
      have hadd := hset.addDescend hcan.1 op (hcan.eraseDescend old op).2
      refine hadd.congr fun w o => ?_
      change (0 - if w = old ∧ o = op then (1 : ℤ) else 0) +
        (if o = op then ((f'.op op).inrefs.count w : ℤ) - ((f'.op op).inrefs.set slot v').count w
          else 0) + (if w = v' ∧ o = op then 1 else 0) = 0
      rw [hopf, count_set hin]
      split_ifs <;> simp_all

/-- One more input of a live op. -/
theorem Linked.addInput (h : f.Linked) (hv : v < f.numVarnodes) (hop : op < f.numOps)
    (hlive : (f.op op).dead = false) (k : VarnodeId → PcodeOp → List VarnodeId)
    (hk : ∀ u w, ((k w (f.op op)).count u : ℤ) = (f.op op).inrefs.count u + if u = w then 1 else 0) :
    (((f.uniqueConstantFor v).1.modOp op fun x =>
      { x with inrefs := k (f.uniqueConstantFor v).2 x }).addDescend
        (f.uniqueConstantFor v).2 op).Linked := by
  have hbooks := Books.uniqueConstantFor h v
  have hcan := canRead_uniqueConstantFor f hv
  have hopf := uniqueConstantFor_op f v
  have hn := uniqueConstantFor_numOps f v
  generalize f.uniqueConstantFor v = e at *
  obtain ⟨f', v'⟩ := e
  dsimp only at *
  have hop' : op < f'.numOps := hop.trans_eq hn.symm
  have hset := hbooks.setInrefs hop' (k v') fun hd => by
    rw [hopf, hlive] at hd
    cases hd
  have hadd := hset.addDescend hcan.1 op hcan.2
  refine hadd.congr fun u o => ?_
  rw [hopf, hk u v']
  split_ifs <;> simp_all

theorem Linked.opAppendInput (h : f.Linked) (hv : v < f.numVarnodes) (hop : op < f.numOps)
    (hlive : (f.op op).dead = false) : (f.opAppendInput op v).Linked := by
  refine h.addInput hv hop hlive (fun w x => x.inrefs ++ [w]) fun u w => ?_
  rw [List.count_append, List.count_singleton]
  simp only [beq_iff_eq, eq_comm (a := w)]
  split_ifs <;> simp

theorem Linked.opInsertInput (h : f.Linked) (hv : v < f.numVarnodes) (hop : op < f.numOps)
    (hlive : (f.op op).dead = false) {slot : ℕ} (hslot : slot ≤ (f.op op).inrefs.length) :
    (f.opInsertInput op slot v).Linked := by
  refine h.addInput hv hop hlive (fun w x => x.inrefs.insertIdx slot w) fun u w => ?_
  rw [(List.perm_insertIdx w _ hslot).count_eq, List.count_cons]
  simp only [beq_iff_eq, eq_comm (a := w)]
  split_ifs <;> simp

theorem Linked.opRemoveInput (h : f.Linked) (op : OpId) (slot : ℕ) :
    (f.opRemoveInput op slot).Linked := by
  unfold Funcdata.opRemoveInput
  cases hin : (f.op op).input slot with
  | none => exact h
  | some old =>
    dsimp only
    obtain ⟨hslot, he⟩ := List.getElem?_eq_some_iff.mp hin
    have hmem : old ∈ (f.op op).inrefs := List.mem_of_getElem? hin
    have hop : op < f.numOps := h.lt_of_mem_descend (h.mem_descend.mpr hmem)
    have hset := Books.setInrefs h hop (fun x => x.inrefs.eraseIdx slot) fun hd => by
      rw [h.dead op hd]
      rfl
    have herase := hset.eraseDescend (h.lt_of_mem_inrefs hmem)
      (h.mem_descend.mpr hmem)
    refine herase.congr fun u o => ?_
    have hperm := (List.getElem_cons_eraseIdx_perm hslot).count_eq u
    rw [List.count_cons, he] at hperm
    simp only [beq_iff_eq, eq_comm (a := old)] at hperm
    change 0 + (if o = op then ((f.op op).inrefs.count u : ℤ) -
      ((f.op op).inrefs.eraseIdx slot).count u else 0) - (if u = old ∧ o = op then 1 else 0) = 0
    by_cases ho : o = op
    · simp only [ho, if_true, and_true]
      split_ifs at hperm ⊢ <;> omega
    · simp only [ho, if_false, and_false]
      rfl

/-- When every input is dropped from the readers, what was owed is paid. -/
theorem linked_foldl_eraseDescend (l : List VarnodeId) (h : f.Books fun u o =>
    if o = op then (l.count u : ℤ) else 0) :
    (l.foldl (fun g v => g.eraseDescend v op) f).Linked := by
  induction l generalizing f with
  | nil => exact h.congr fun u o => by simp
  | cons v l ih =>
    have hmem : op ∈ (f.vn v).descend := by
      have hl := h.links v op
      rw [if_pos rfl, List.count_cons_self] at hl
      refine List.count_pos_iff.mp ?_
      omega
    have hv : v < f.numVarnodes := by
      by_contra hlt
      rw [(h.blankVn v (not_lt.mp hlt)).1] at hmem
      exact List.not_mem_nil hmem
    refine ih ((h.eraseDescend hv hmem).congr fun u o => ?_)
    rw [List.count_cons]
    simp only [beq_iff_eq, eq_comm (a := v)]
    split_ifs <;> simp_all

theorem foldl_eraseDescend_op (l : List VarnodeId) (op : OpId) (f : Funcdata) :
    (l.foldl (fun g v => g.eraseDescend v op) f).op = f.op := by
  induction l generalizing f with
  | nil => rfl
  | cons v l ih => exact ih _

theorem foldl_eraseDescend_num (l : List VarnodeId) (op : OpId) (f : Funcdata) :
    (l.foldl (fun g v => g.eraseDescend v op) f).numOps = f.numOps ∧
      (l.foldl (fun g v => g.eraseDescend v op) f).numVarnodes = f.numVarnodes := by
  induction l generalizing f with
  | nil => exact ⟨rfl, rfl⟩
  | cons v l ih => exact ih _

theorem takeInputs_op (f : Funcdata) (op o : OpId) :
    (f.takeInputs op).op o = if o = op then { f.op op with inrefs := [] } else f.op o := by
  unfold takeInputs
  rw [foldl_eraseDescend_op, modOp_op]

theorem takeInputs_blocks (f : Funcdata) (op : OpId) : (f.takeInputs op).blocks = f.blocks := by
  unfold takeInputs
  have hfold : ∀ (l : List VarnodeId) (g : Funcdata),
      (l.foldl (fun g v => g.eraseDescend v op) g).blocks = g.blocks := by
    intro l
    induction l with
    | nil => exact fun _ => rfl
    | cons v l ih => exact fun g => ih _
  exact hfold _ _

theorem opDestroy_blocks (f : Funcdata) (op : OpId) : (f.opDestroy op).blocks = f.blocks := by
  have htake := takeInputs_blocks f op
  unfold opDestroy
  generalize f.takeInputs op = g at *
  dsimp only
  cases (g.op op).output with
  | none => exact htake
  | some out => exact htake

theorem Linked.takeInputs (h : f.Linked) (hop : op < f.numOps) : (f.takeInputs op).Linked := by
  refine linked_foldl_eraseDescend _ ?_
  refine (Books.setInrefs h hop (fun _ => []) fun _ => rfl).congr fun u o => ?_
  split_ifs <;> simp

theorem opAppendInput_op (f : Funcdata) (op : OpId) (v : VarnodeId) :
    ((f.opAppendInput op v).op op).dead = (f.op op).dead := by
  unfold opAppendInput
  simp only [addDescend, modVn_op, modOp_op, if_true, uniqueConstantFor_op]

theorem opAppendInput_num (f : Funcdata) (op : OpId) (v : VarnodeId) :
    (f.opAppendInput op v).numOps = f.numOps ∧
      f.numVarnodes ≤ (f.opAppendInput op v).numVarnodes :=
  ⟨uniqueConstantFor_numOps f v, uniqueConstantFor_le f v⟩

theorem Linked.appendAll (h : f.Linked) (hop : op < f.numOps) (hlive : (f.op op).dead = false)
    {inputs : List VarnodeId} (hin : ∀ v ∈ inputs, v < f.numVarnodes) :
    (inputs.foldl (fun g v => g.opAppendInput op v) f).Linked := by
  induction inputs generalizing f with
  | nil => exact h
  | cons v l ih =>
    obtain ⟨hnum, hle⟩ := opAppendInput_num f op v
    refine ih (h.opAppendInput (hin v List.mem_cons_self) hop hlive) (hop.trans_eq hnum.symm)
      ((opAppendInput_op f op v).trans hlive) fun u hu => ?_
    exact (hin u (List.mem_cons_of_mem _ hu)).trans_le hle

theorem Linked.opSetAllInput (h : f.Linked) (hop : op < f.numOps) {inputs : List VarnodeId}
    (hin : ∀ v ∈ inputs, v < f.numVarnodes) (hlive : (f.op op).dead = false ∨ inputs = []) :
    (f.opSetAllInput op inputs).Linked := by
  obtain ⟨hnum, hvn⟩ := foldl_eraseDescend_num (f.op op).inrefs op
    (f.modOp op fun x => { x with inrefs := [] })
  rcases hlive with hlive | rfl
  · refine (h.takeInputs hop).appendAll (hop.trans_eq hnum.symm) ?_ fun v hv =>
      (hin v hv).trans_eq hvn.symm
    rw [takeInputs_op, if_pos rfl]
    exact hlive
  · exact h.takeInputs hop

theorem Linked.opSwapInput (h : f.Linked) (op : OpId) (i j : ℕ) : (f.opSwapInput op i j).Linked := by
  unfold Funcdata.opSwapInput
  cases hi : (f.op op).input i with
  | none => exact h
  | some a =>
    cases hj : (f.op op).input j with
    | none => exact h
    | some b =>
      dsimp only
      have hmem : a ∈ (f.op op).inrefs := List.mem_of_getElem? hi
      have hop : op < f.numOps := h.lt_of_mem_descend (h.mem_descend.mpr hmem)
      refine (Books.setInrefs h hop (fun x => (x.inrefs.set i b).set j a) fun hd => ?_).congr
        fun u o => ?_
      · rw [h.dead op hd] at hmem
        exact absurd hmem List.not_mem_nil
      · obtain ⟨hlt, he⟩ := List.getElem?_eq_some_iff.mp hi
        obtain ⟨hlt', he'⟩ := List.getElem?_eq_some_iff.mp hj
        have hj' : ((f.op op).inrefs.set i b)[j]? = some b := by
          rw [List.getElem?_set]
          split_ifs with hij
          · rfl
          · exact hj
        rw [count_set hj', count_set hi]
        split_ifs <;> simp

/-! Definitions. -/

/-- Edits of definitions: the readers and the inputs stay. -/
theorem Books.redefine (h : f.Books owed) {f' : Funcdata} (hnv : f'.numVarnodes = f.numVarnodes)
    (hno : f'.numOps = f.numOps)
    (hvn : ∀ u, (f'.vn u).descend = (f.vn u).descend ∧ (f'.vn u).constant = (f.vn u).constant ∧
      (f'.vn u).spacebase = (f.vn u).spacebase)
    (hop : ∀ o, (f'.op o).inrefs = (f.op o).inrefs ∧ (f'.op o).dead = (f.op o).dead)
    (hblankVn : ∀ u, f.numVarnodes ≤ u → (f'.vn u).defOp = none)
    (hblankOp : ∀ o, f.numOps ≤ o → (f'.op o).output = none)
    (hdefs : ∀ u o, (f'.vn u).defOp = some o ↔ (f'.op o).output = some u)
    (hflags : ∀ u < f.numVarnodes, (f'.vn u).insert = ((f'.vn u).written || (f'.vn u).input) ∧
      (f'.vn u).written = (f'.vn u).defOp.isSome) : f'.Books owed where
  blankVn u hu := ⟨(hvn u).1.trans (h.blankVn u (hnv ▸ hu)).1, hblankVn u (hnv ▸ hu)⟩
  blankOp o ho := ⟨(hop o).1.trans (h.blankOp o (hno ▸ ho)).1, hblankOp o (hno ▸ ho)⟩
  links u o := by
    rw [(hvn u).1, (hop o).1]
    exact h.links u o
  dead o hd := by
    rw [(hop o).2] at hd
    rw [(hop o).1]
    exact h.dead o hd
  defs := hdefs
  insert u hu := (hflags u (hnv ▸ hu)).1
  written u hu := (hflags u (hnv ▸ hu)).2
  constant u hu := by
    rw [(hvn u).1, (hvn u).2.1, (hvn u).2.2]
    exact h.constant u (hnv ▸ hu)

theorem Books.flags (h : f.Books owed) (u : VarnodeId) (hu : u < f.numVarnodes) :
    (f.vn u).insert = ((f.vn u).written || (f.vn u).input) ∧
      (f.vn u).written = (f.vn u).defOp.isSome :=
  ⟨h.insert u hu, h.written u hu⟩

/-- What stays of `x` when its record becomes that of a free varnode, which may be an input. -/
structure Frees (x y : Varnode) : Prop where
  descend : y.descend = x.descend
  constant : y.constant = x.constant
  spacebase : y.spacebase = x.spacebase
  defOp : y.defOp = none
  written : y.written = false
  insert : y.insert = y.input

/-- `v` and the op that defines it part; what is left of the record of `v` is free. -/
theorem Books.cut (h : f.Books owed) (hout : (f.op op).output = some v) (k : Varnode → Varnode)
    (hk : Frees (f.vn v) (k (f.vn v))) :
    ((f.modOp op fun x => { x with output := none }).modVn v k).Books owed := by
  have hv := (h.defs v op).mpr hout
  refine h.redefine rfl rfl ?_ ?_ ?_ ?_ ?_ ?_
  all_goals simp only [modVn_vn, modVn_op, modOp_vn, modOp_op]
  · intro u
    split_ifs with hu
    · subst hu
      exact ⟨hk.descend, hk.constant, hk.spacebase⟩
    · exact ⟨rfl, rfl, rfl⟩
  · intro o
    split_ifs with ho
    · subst ho
      exact ⟨rfl, rfl⟩
    · exact ⟨rfl, rfl⟩
  · intro u hu
    split_ifs
    · exact hk.defOp
    · exact (h.blankVn u hu).2
  · intro o ho
    split_ifs
    · rfl
    · exact (h.blankOp o ho).2
  · intro u o
    have hd := h.defs u o
    split_ifs with hu ho ho
    · rw [hk.defOp]
      simp only [reduceCtorEq]
    · subst hu
      rw [hk.defOp, ← hd, hv]
      simp only [Option.some.injEq, reduceCtorEq, false_iff]
      exact Ne.symm ho
    · subst ho
      rw [hd, hout]
      simp only [Option.some.injEq, iff_false]
      exact Ne.symm hu
    · exact hd
  · intro u hu
    split_ifs
    · rw [hk.insert, hk.written, hk.defOp]
      exact ⟨rfl, rfl⟩
    · exact h.flags u hu

/-- Another record for a varnode without definition. -/
theorem Books.free (h : f.Books owed) (hdef : (f.vn v).defOp = none) (k : Varnode → Varnode)
    (hk : Frees (f.vn v) (k (f.vn v))) : (f.modVn v k).Books owed := by
  refine h.redefine rfl rfl ?_ (fun _ => ⟨rfl, rfl⟩) ?_ (fun o ho => (h.blankOp o ho).2) ?_ ?_
  all_goals simp only [modVn_vn, modVn_op]
  · intro u
    split_ifs with hu
    · subst hu
      exact ⟨hk.descend, hk.constant, hk.spacebase⟩
    · exact ⟨rfl, rfl, rfl⟩
  · intro u hu
    split_ifs
    · exact hk.defOp
    · exact (h.blankVn u hu).2
  · intro u o
    have hd := h.defs u o
    split_ifs with hu
    · subst hu
      rwa [hk.defOp, ← hdef]
    · exact hd
  · intro u hu
    split_ifs
    · rw [hk.insert, hk.written, hk.defOp]
      exact ⟨rfl, rfl⟩
    · exact h.flags u hu

/-- `v` becomes the output of an op that has none. -/
theorem Books.join (h : f.Books owed) (hv : v < f.numVarnodes) (hop : op < f.numOps)
    (hdef : (f.vn v).defOp = none) (hout : (f.op op).output = none) :
    ((f.modVn v fun x => { x with
        defOp := some op
        written := true
        insert := true }).modOp op fun x => { x with output := some v }).Books owed := by
  refine h.redefine rfl rfl ?_ ?_ ?_ ?_ ?_ ?_
  all_goals simp only [modOp_vn, modOp_op, modVn_vn, modVn_op]
  · intro u
    split_ifs with hu
    · subst hu
      exact ⟨rfl, rfl, rfl⟩
    · exact ⟨rfl, rfl, rfl⟩
  · intro o
    split_ifs with ho
    · subst ho
      exact ⟨rfl, rfl⟩
    · exact ⟨rfl, rfl⟩
  · intro u hu
    have hne : u ≠ v := fun he => absurd hv (not_lt.mpr (he ▸ hu))
    rw [if_neg hne]
    exact (h.blankVn u hu).2
  · intro o ho
    have hne : o ≠ op := fun he => absurd hop (not_lt.mpr (he ▸ ho))
    rw [if_neg hne]
    exact (h.blankOp o ho).2
  · intro u o
    have hd := h.defs u o
    split_ifs with hu ho ho
    · rw [hu, ho]
      simp only
    · subst hu
      rw [← hd, hdef]
      simp only [Option.some.injEq, reduceCtorEq, iff_false]
      exact Ne.symm ho
    · subst ho
      rw [hd, hout]
      simp only [Option.some.injEq, reduceCtorEq, false_iff]
      exact Ne.symm hu
    · exact hd
  · intro u hu
    split_ifs
    · exact ⟨rfl, rfl⟩
    · exact h.flags u hu

/-- An op without inputs may die. -/
theorem Books.kill (h : f.Books owed) (hin : (f.op op).inrefs = []) :
    (f.modOp op fun x => { x with dead := true }).Books owed where
  blankVn := h.blankVn
  blankOp o ho := by
    rw [modOp_op]
    split_ifs with he
    · subst he
      exact h.blankOp o ho
    · exact h.blankOp o ho
  links u o := by
    have hl := h.links u o
    rw [modOp_op]
    split_ifs with ho
    · subst ho
      exact hl
    · exact hl
  dead o hd := by
    rw [modOp_op] at hd ⊢
    split_ifs at hd ⊢ with ho
    · exact hin
    · exact h.dead o hd
  defs u o := by
    have hd := h.defs u o
    rw [modOp_op]
    split_ifs with ho
    · subst ho
      exact hd
    · exact hd
  insert := h.insert
  written := h.written
  constant := h.constant

theorem Books.lt_of_defOp (h : f.Books owed) (hd : (f.vn v).defOp = some op) : op < f.numOps := by
  by_contra hlt
  have hout := (h.defs v op).mp hd
  rw [(h.blankOp op (not_lt.mp hlt)).2] at hout
  cases hout

theorem Books.unsetOutput (h : f.Books owed) (op : OpId) : (f.unsetOutput op).Books owed := by
  unfold Funcdata.unsetOutput
  cases hout : (f.op op).output with
  | none => exact h
  | some old => exact h.cut hout _ ⟨rfl, rfl, rfl, rfl, rfl, rfl⟩

theorem unsetOutput_output (f : Funcdata) (op : OpId) :
    ((f.unsetOutput op).op op).output = none := by
  unfold unsetOutput
  cases hout : (f.op op).output with
  | none => exact hout
  | some old =>
    dsimp only
    unfold makeFree
    rw [modVn_op, modOp_op, if_pos rfl]

theorem unsetOutput_num (f : Funcdata) (op : OpId) :
    (f.unsetOutput op).numOps = f.numOps ∧ (f.unsetOutput op).numVarnodes = f.numVarnodes := by
  unfold unsetOutput
  cases (f.op op).output with
  | none => exact ⟨rfl, rfl⟩
  | some old => exact ⟨rfl, rfl⟩

theorem Linked.deleteVarnode (h : f.Linked) (hdef : (f.vn v).defOp = none) :
    (f.deleteVarnode v).Linked :=
  Books.free h hdef _ ⟨rfl, rfl, rfl, rfl, rfl, rfl⟩

theorem modVn_modVn (f : Funcdata) (v : VarnodeId) (k k' : Varnode → Varnode) :
    (f.modVn v k).modVn v k' = f.modVn v (fun x => k' (k x)) := by
  unfold modVn
  simp only [Function.update_self, Function.update_idem]

theorem modOp_modOp (f : Funcdata) (op : OpId) (k k' : PcodeOp → PcodeOp) :
    (f.modOp op k).modOp op k' = f.modOp op (fun x => k' (k x)) := by
  unfold modOp
  simp only [Function.update_self, Function.update_idem]

theorem modOp_modVn (f : Funcdata) (op : OpId) (v : VarnodeId) (k : PcodeOp → PcodeOp)
    (k' : Varnode → Varnode) : (f.modOp op k).modVn v k' = (f.modVn v k').modOp op k := rfl

theorem Linked.opSetOutput (h : f.Linked) (hop : op < f.numOps) (hv : v < f.numVarnodes) :
    (f.opSetOutput op v).Linked := by
  unfold Funcdata.opSetOutput
  split_ifs with hsame
  · exact h
  · have hun := Books.unsetOutput h op
    have hout := unsetOutput_output f op
    obtain ⟨hno, hnv⟩ := unsetOutput_num f op
    generalize f.unsetOutput op = f' at *
    unfold takeDef
    cases hdef : (f'.vn v).defOp with
    | none => exact hun.join (hnv ▸ hv) (hno ▸ hop) hdef hout
    | some old =>
      -- `v` leaves its old op first; that its record is then free does not show.
      have hcut := hun.cut ((hun.defs v old).mp hdef)
        (fun x => { x with defOp := none, written := false, insert := x.input })
        ⟨rfl, rfl, rfl, rfl, rfl, rfl⟩
      have hv' : v < f'.numVarnodes := hnv ▸ hv
      have hop' : op < f'.numOps := hno ▸ hop
      have hjoin := hcut.join hv' hop' (by
        rw [modVn_vn, if_pos rfl]) (by
        rw [modVn_op, modOp_op]
        split_ifs
        · rfl
        · exact hout)
      rw [modVn_modVn, modOp_modVn] at hjoin
      dsimp only
      rw [modOp_modVn, modVn_modVn]
      exact hjoin

theorem Linked.newOutput (h : f.Linked) (hop : op < f.numOps) (size : ℕ) (loc : Address) :
    (f.newOutput op size loc).1.Linked := by
  have hun := Books.unsetOutput h op
  have hout := unsetOutput_output f op
  obtain ⟨hno, hnv⟩ := unsetOutput_num f op
  have halloc := hun.allocVarnode size loc false
  have hlt : f.numVarnodes < (f.unsetOutput op).numVarnodes + 1 := by
    rw [hnv]
    exact Nat.lt_succ_self _
  have hop' : op < (f.unsetOutput op).numOps := hno ▸ hop
  have hjoin := halloc.join hlt hop' (by
      rw [allocVarnode_vn, if_pos hnv.symm]
      rfl) hout
  have hsame : ((f.unsetOutput op).allocVarnode size loc false).modOp op
      (fun x => { x with output := some f.numVarnodes }) =
      (((f.op op).output.elim f f.makeFree).allocVarnode size loc false).modOp op
        (fun x => { x with output := some f.numVarnodes }) := by
    unfold Funcdata.unsetOutput
    cases (f.op op).output with
    | none => rfl
    | some old =>
      exact modOp_modOp ((f.makeFree old).allocVarnode size loc false) op
        (fun x => { x with output := none }) (fun x => { x with output := some f.numVarnodes })
  rw [← modOp_modVn, hsame] at hjoin
  exact hjoin

theorem Linked.applyInputEffect (h : f.Linked) (unaffected : Address → ℕ → Bool) (v : VarnodeId) :
    (f.applyInputEffect unaffected v).Linked := by
  unfold Funcdata.applyInputEffect
  split_ifs
  · refine Books.of_same h rfl rfl (fun u => ?_) fun _ => ⟨rfl, rfl, rfl⟩
    rw [modVn_vn]
    split_ifs with hu
    · subst hu
      exact ⟨rfl, rfl, rfl, rfl, rfl, rfl, rfl⟩
    · exact ⟨rfl, rfl, rfl, rfl, rfl, rfl, rfl⟩
  · exact h

theorem Linked.newInput (h : f.Linked) (unaffected : Address → ℕ → Bool) (size : ℕ)
    (loc : Address) : (f.newInput unaffected size loc).1.Linked := by
  unfold Funcdata.newInput
  cases f.inputAt size loc with
  | some v => exact h
  | none =>
    refine Linked.applyInputEffect ?_ unaffected _
    have halloc := Books.allocVarnode h size loc false
    refine halloc.free ?_ _ ⟨rfl, rfl, rfl, ?_, ?_, rfl⟩
    all_goals
      simp only [allocVarnode_vn, if_true]
      rfl

/-- The input that `set_input_varnode` would make is at hand, or the varnode has no definition. -/
def CanBeInput (f : Funcdata) (v : VarnodeId) : Prop :=
  (f.vn v).input = true ∨ (f.inputAt (f.vn v).size (f.vn v).loc).isSome = true ∨
    (f.vn v).defOp = none

theorem Linked.setInputVarnode (h : f.Linked) (unaffected : Address → ℕ → Bool)
    (hv : f.CanBeInput v) : (f.setInputVarnode unaffected v).1.Linked := by
  unfold Funcdata.setInputVarnode
  split_ifs with hin
  · exact h
  · cases hat : f.inputAt (f.vn v).size (f.vn v).loc with
    | some u => exact h
    | none =>
      refine Linked.applyInputEffect ?_ unaffected _
      have hdef : (f.vn v).defOp = none := by
        rcases hv with hin' | hat' | hdef
        · exact absurd hin' hin
        · rw [hat] at hat'
          cases hat'
        · exact hdef
      exact Books.free h hdef _ ⟨rfl, rfl, rfl, rfl, rfl, rfl⟩

theorem Linked.opDestroy (h : f.Linked) (hop : op < f.numOps) : (f.opDestroy op).Linked := by
  unfold Funcdata.opDestroy
  have htake := h.takeInputs hop
  have hin : ((f.takeInputs op).op op).inrefs = [] := by rw [takeInputs_op, if_pos rfl]
  generalize f.takeInputs op = f' at *
  cases hout : (f'.op op).output with
  | none =>
    dsimp only
    rw [hout]
    exact Books.kill htake hin
  | some out =>
    dsimp only
    rw [hout]
    refine Books.kill (Books.cut htake hout _ ⟨rfl, rfl, rfl, rfl, rfl, rfl⟩) ?_
    dsimp only
    unfold Funcdata.deleteVarnode
    rw [modVn_op, modOp_op, if_pos rfl]
    exact hin

end Funcdata
end Mosura
