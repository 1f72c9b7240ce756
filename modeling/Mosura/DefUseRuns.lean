import Mosura.DefUse

/-! The primitives that edit several ops keep definitions and uses linked, and so do runs of calls. -/

namespace Mosura
namespace Funcdata

variable {f : Funcdata} {owed : VarnodeId → OpId → ℤ} {v u : VarnodeId} {op o : OpId}

/-! A new op. -/

/-- No constant without reader is listed twice, spacebase constants apart. -/
def Unshared (f : Funcdata) (inputs : List VarnodeId) : Prop :=
  ∀ v ∈ inputs, (f.vn v).constant = true → (f.vn v).spacebase = false → (f.vn v).descend = [] →
    inputs.count v ≤ 1

theorem uniqueConstants_mem {inputs : List VarnodeId} {f : Funcdata}
    (h : u ∈ (f.uniqueConstants inputs).2) : u ∈ inputs ∨ f.numVarnodes ≤ u := by
  induction inputs generalizing f with
  | nil => exact absurd h List.not_mem_nil
  | cons v l ih =>
    change u ∈ (f.uniqueConstantFor v).2 :: ((f.uniqueConstantFor v).1.uniqueConstants l).2 at h
    rcases List.mem_cons.mp h with hu | hl
    · rw [hu]
      rcases uniqueConstantFor_cases f v with he | ⟨-, he⟩
      · rw [he]
        exact .inl List.mem_cons_self
      · rw [he]
        exact .inr le_rfl
    · rcases ih hl with hu | hu
      · exact .inl (List.mem_cons_of_mem _ hu)
      · exact .inr ((uniqueConstantFor_le f v).trans hu)

theorem uniqueConstants_vn (inputs : List VarnodeId) (f : Funcdata) {u : VarnodeId}
    (hu : u < f.numVarnodes) : (f.uniqueConstants inputs).1.vn u = f.vn u := by
  induction inputs generalizing f with
  | nil => rfl
  | cons v l ih =>
    change ((f.uniqueConstantFor v).1.uniqueConstants l).1.vn u = f.vn u
    rw [ih _ (hu.trans_le (uniqueConstantFor_le f v)), uniqueConstantFor_vn f v hu]

theorem Books.uniqueConstants (h : f.Books owed) (inputs : List VarnodeId) :
    (f.uniqueConstants inputs).1.Books owed := by
  induction inputs generalizing f with
  | nil => exact h
  | cons v l ih => exact ih (h.uniqueConstantFor v)

/-- What a new op reads may get a reader, and a constant only one. -/
theorem canRead_uniqueConstants {inputs : List VarnodeId} {f : Funcdata}
    (hin : ∀ v ∈ inputs, v < f.numVarnodes) (hun : f.Unshared inputs) :
    ∀ u ∈ (f.uniqueConstants inputs).2, (f.uniqueConstants inputs).1.CanRead u ∧
      (((f.uniqueConstants inputs).1.vn u).constant = true →
        ((f.uniqueConstants inputs).1.vn u).spacebase = false →
        (f.uniqueConstants inputs).2.count u ≤ 1) := by
  induction inputs generalizing f with
  | nil => exact fun u hu => absurd hu List.not_mem_nil
  | cons v l ih =>
    have hv := hin v List.mem_cons_self
    have hle := uniqueConstantFor_le f v
    have hcan := canRead_uniqueConstantFor f hv
    have hcase := uniqueConstantFor_cases f v
    have hsame : ∀ w ∈ l, (f.uniqueConstantFor v).1.vn w = f.vn w := fun w hw =>
      uniqueConstantFor_vn f v (hin w (List.mem_cons_of_mem _ hw))
    have htail := @ih (f.uniqueConstantFor v).1
      (fun w hw => (hin w (List.mem_cons_of_mem _ hw)).trans_le hle) (fun w hw hc hs hd => by
        rw [hsame w hw] at hc hs hd
        have hcount := hun w (List.mem_cons_of_mem _ hw) hc hs hd
        exact (List.count_le_count_cons).trans hcount)
    change ∀ u ∈ (f.uniqueConstantFor v).2 :: ((f.uniqueConstantFor v).1.uniqueConstants l).2, _
    -- a constant at the head is not listed again behind it
    have hfresh : ((f.uniqueConstantFor v).1.vn (f.uniqueConstantFor v).2).constant = true →
        ((f.uniqueConstantFor v).1.vn (f.uniqueConstantFor v).2).spacebase = false →
        (f.uniqueConstantFor v).2 ∉ ((f.uniqueConstantFor v).1.uniqueConstants l).2 := by
      intro hc hs hmem
      rcases uniqueConstants_mem hmem with hl | hl
      · rcases hcase with he | ⟨-, he⟩
        · rw [he] at hc hs hl hcan
          have hcount := hun v List.mem_cons_self hc hs (hcan.2 hc hs)
          rw [List.count_cons_self] at hcount
          have hpos : 0 < l.count v := List.count_pos_iff.mpr hl
          omega
        · rw [he] at hl
          exact absurd (hin _ (List.mem_cons_of_mem _ hl)) (lt_irrefl _)
      · exact absurd hcan.1 (not_lt.mpr hl)
    have hhead : ((f.uniqueConstantFor v).1.uniqueConstants l).1.vn (f.uniqueConstantFor v).2 =
        (f.uniqueConstantFor v).1.vn (f.uniqueConstantFor v).2 :=
      uniqueConstants_vn l _ hcan.1
    have hle' : (f.uniqueConstantFor v).1.numVarnodes ≤
        ((f.uniqueConstantFor v).1.uniqueConstants l).1.numVarnodes :=
      (uniqueConstants_spec l _ fun w hw =>
        (hin w (List.mem_cons_of_mem _ hw)).trans_le hle).1.le
    intro u hu
    change ((f.uniqueConstantFor v).1.uniqueConstants l).1.CanRead u ∧
      ((((f.uniqueConstantFor v).1.uniqueConstants l).1.vn u).constant = true →
        (((f.uniqueConstantFor v).1.uniqueConstants l).1.vn u).spacebase = false →
        ((f.uniqueConstantFor v).2 :: ((f.uniqueConstantFor v).1.uniqueConstants l).2).count u ≤ 1)
    by_cases hl : u ∈ ((f.uniqueConstantFor v).1.uniqueConstants l).2
    · refine ⟨(htail u hl).1, fun hc hs => ?_⟩
      have hne : (f.uniqueConstantFor v).2 ≠ u := by
        intro he
        subst he
        rw [hhead] at hc hs
        exact hfresh hc hs hl
      rw [List.count_cons_of_ne hne]
      exact (htail u hl).2 hc hs
    · rcases List.mem_cons.mp hu with rfl | hu
      · refine ⟨⟨hcan.1.trans_le hle', ?_⟩, fun _ _ => ?_⟩
        · rw [hhead]
          exact hcan.2
        · rw [List.count_cons_self, List.count_eq_zero.mpr hl]
      · exact absurd hu hl

theorem Books.addAll (ids : List VarnodeId) (op : OpId) (h : f.Books owed)
    (hcan : ∀ v ∈ ids, f.CanRead v ∧
      ((f.vn v).constant = true → (f.vn v).spacebase = false → ids.count v ≤ 1)) :
    (ids.foldl (fun g v => g.addDescend v op) f).Books fun v o =>
      owed v o + if o = op then (ids.count v : ℤ) else 0 := by
  induction ids generalizing f owed with
  | nil => exact h.congr fun v o => by simp
  | cons v l ih =>
    have hhead := hcan v List.mem_cons_self
    have hadd := h.addDescend hhead.1.1 op hhead.1.2
    refine (@ih (f.addDescend v op) _ hadd ?_).congr fun u o => ?_
    · intro u hu
      have htail := hcan u (List.mem_cons_of_mem _ hu)
      unfold CanRead Funcdata.addDescend
      rw [modVn_vn]
      split_ifs with he
      · -- a constant is not listed again
        have hno : (f.vn u).constant = true → (f.vn u).spacebase = false → False := by
          intro hc hs
          have hcount := htail.2 hc hs
          rw [he, List.count_cons_self] at hcount
          have hpos := List.count_pos_iff.mpr (he ▸ hu)
          omega
        subst he
        exact ⟨⟨htail.1.1, fun hc hs => (hno hc hs).elim⟩, fun hc hs => (hno hc hs).elim⟩
      · exact ⟨htail.1, fun hc hs => (List.count_le_count_cons).trans (htail.2 hc hs)⟩
    · rw [List.count_cons]
      simp only [beq_iff_eq, eq_comm (a := v)]
      split_ifs <;> simp_all
      ring

/-- The op that its inputs list already comes into the arena. -/
theorem Books.pushOp (ids : List VarnodeId) (opcode : OpCode) (seqnum : SeqNum)
    (h : f.Books fun v o => if o = f.numOps then (ids.count v : ℤ) else 0) :
    Linked { f with
      op := Function.update f.op f.numOps { opcode := opcode, seqnum := seqnum, inrefs := ids }
      numOps := f.numOps + 1 } := by
  have hop : ∀ o, (Funcdata.op { f with
      op := Function.update f.op f.numOps { opcode := opcode, seqnum := seqnum, inrefs := ids }
      numOps := f.numOps + 1 } o) =
      if o = f.numOps then { opcode := opcode, seqnum := seqnum, inrefs := ids } else f.op o :=
    fun o => Function.update_apply ..
  refine ⟨h.blankVn, fun o ho => ?_, fun v o => ?_, fun o hd => ?_, fun v o => ?_, h.insert,
    h.written, h.constant⟩
  · have hlt : f.numOps < o := ho
    rw [hop, if_neg hlt.ne']
    exact h.blankOp o hlt.le
  · have hl := h.links v o
    rw [hop]
    split_ifs at hl ⊢ with he
    · rw [he, (h.blankOp _ le_rfl).1] at hl
      rw [he]
      simpa using hl
    · exact hl
  · rw [hop] at hd ⊢
    split_ifs at hd ⊢ with he
    · exact h.dead o hd
  · have hd := h.defs v o
    rw [hop]
    split_ifs with he
    · rw [he, (h.blankOp _ le_rfl).2] at hd
      rw [he]
      simpa using hd
    · exact hd

theorem Linked.newOp (h : f.Linked) (opcode : OpCode) (seqnum : SeqNum) {inputs : List VarnodeId}
    (hin : ∀ v ∈ inputs, v < f.numVarnodes) (hun : f.Unshared inputs) :
    (f.newOp opcode seqnum inputs).1.Linked := by
  have hbooks := Books.uniqueConstants h inputs
  have hcan := canRead_uniqueConstants hin hun
  obtain ⟨-, -, hnum, -⟩ := uniqueConstants_spec inputs f hin
  have hadd := hbooks.addAll _ f.numOps hcan
  have hnum' : ((f.uniqueConstants inputs).2.foldl (fun g v => g.addDescend v f.numOps)
      (f.uniqueConstants inputs).1).numOps = f.numOps := by
    refine Eq.trans ?_ hnum
    generalize (f.uniqueConstants inputs).1 = g
    induction (f.uniqueConstants inputs).2 generalizing g with
    | nil => rfl
    | cons v l ih => exact ih _
  have hpush := Books.pushOp (f.uniqueConstants inputs).2 opcode seqnum
    (hadd.congr fun v o => by rw [hnum', zero_add])
  rw [hnum'] at hpush
  exact hpush

/-! Replacing all reads. -/

theorem replaceIn_op (f : Funcdata) (old new : VarnodeId) (op o : OpId) :
    ((f.replaceIn old new op).op o).inrefs = if o = op then
      (f.op op).inrefs.map (fun v => if v = old then new else v) else (f.op o).inrefs := by
  unfold replaceIn
  rw [modVn_op, modOp_op]
  split_ifs
  · rfl
  · rfl

theorem count_map_replace {old new : VarnodeId} (hne : old ≠ new) (l : List VarnodeId)
    (v : VarnodeId) : (l.map fun u => if u = old then new else u).count v =
      if v = old then 0 else l.count v + if v = new then l.count old else 0 := by
  induction l with
  | nil => simp
  | cons u l ih =>
    rw [List.map_cons, List.count_cons, ih, List.count_cons, List.count_cons]
    simp only [beq_iff_eq]
    by_cases hv : v = old
    · subst hv
      by_cases hu : u = v
      · simp [hu, Ne.symm hne]
      · simp [hu]
    · by_cases hu : u = old
      · subst hu
        by_cases hn : v = new
        · subst hn
          simp [hv, hne]
          ring
        · simp [hv, hn, Ne.symm hv, Ne.symm hn]
      · simp [hv, hu]
        ring

/-- The readers of `old` are taken over one after the other; only the ops of `l` still read it. -/
theorem linked_foldl_replaceIn {old new : VarnodeId} (hne : old ≠ new) (l : List OpId)
    (h : f.Books fun v o => if v = old then -((f.op o).inrefs.count old : ℤ) else 0)
    (hnew : new < f.numVarnodes) (hl : ∀ o ∈ l, o < f.numOps)
    (hcount : ∀ o, (f.op o).inrefs.count old ≤ l.count o)
    (hconst : (f.vn new).constant = true → (f.vn new).spacebase = false →
      (f.vn new).descend.length + l.length ≤ 1) :
    (l.foldl (fun g op => g.replaceIn old new op) f).Linked := by
  induction l generalizing f with
  | nil =>
    refine h.congr fun v o => ?_
    have hzero : (f.op o).inrefs.count old = 0 := Nat.le_zero.mp (hcount o)
    rw [hzero]
    split_ifs
    · rfl
    · rfl
  | cons op l ih =>
    have hop := hl op List.mem_cons_self
    have hreads := hcount op
    have hset := h.setInrefs hop
      (fun x => x.inrefs.map fun v => if v = old then new else v) fun hd => by
        rw [h.dead op hd]
        rfl
    have hnewset := hset.setDescend (u := new) hnew
      (fun x => x.descend ++ List.replicate ((f.op op).inrefs.count old) op) fun hc hs => by
        have hlen := hconst hc hs
        have hle := List.count_le_length (a := op) (l := op :: l)
        change ((f.vn new).descend ++ _).length ≤ 1
        rw [List.length_append, List.length_replicate]
        omega
    have hop' := replaceIn_op f old new op
    refine @ih (f.replaceIn old new op) (hnewset.congr fun v o => ?_) hnew
      (fun o ho => hl o (List.mem_cons_of_mem _ ho)) (fun o => ?_) fun hc hs => ?_
    · rw [hop']
      change (if v = old then -((f.op o).inrefs.count old : ℤ) else 0) +
        (if o = op then ((f.op op).inrefs.count v : ℤ) -
          ((f.op op).inrefs.map fun v => if v = old then new else v).count v else 0) +
        (if v = new then (((f.vn new).descend ++
          List.replicate ((f.op op).inrefs.count old) op).count o : ℤ) -
            (f.vn new).descend.count o else 0) = _
      rw [List.count_append, List.count_replicate, count_map_replace hne]
      by_cases hv : v = old
      · subst hv
        by_cases ho : o = op
        · subst ho
          simp only [if_true, if_neg hne, count_map_replace hne]
          simp
        · simp only [if_true, if_neg hne, if_neg ho]
          simp
      · by_cases ho : o = op
        · subst ho
          by_cases hn : v = new
          · subst hn
            simp only [if_neg hv, if_true, BEq.rfl]
            push_cast
            ring
          · simp only [if_neg hv, if_neg hn, if_true]
            simp
        · have hbeq : (op == o) = false := by simpa using Ne.symm ho
          simp only [if_neg hv, if_neg ho, hbeq]
          simp
    · rw [hop']
      split_ifs with ho
      · rw [count_map_replace hne, if_pos rfl]
        exact Nat.zero_le _
      · have hle := hcount o
        rwa [List.count_cons_of_ne (Ne.symm ho)] at hle
    · unfold Funcdata.replaceIn at hc hs ⊢
      rw [modVn_vn, if_pos rfl] at hc hs ⊢
      have hlen := hconst hc hs
      have hle := List.count_le_length (a := op) (l := op :: l)
      change ((f.vn new).descend ++ List.replicate _ op).length + l.length ≤ 1
      rw [List.length_append, List.length_replicate]
      rw [List.length_cons] at hlen hle
      omega

/-- The readers of `old` can go to `new`: a constant gets no second one, and `old` itself is read
once at most by each op. -/
def CanReplace (f : Funcdata) (old new : VarnodeId) : Prop :=
  if old = new then ∀ op, (f.op op).inrefs.count old ≤ 1
  else (f.vn new).constant = true → (f.vn new).spacebase = false →
    (f.vn new).descend.length + (f.vn old).descend.length ≤ 1

/-- Each reader of `v` that reads it once is put back at the end. -/
theorem foldl_replaceIn_self (l : List OpId) (h : ∀ o ∈ l, (f.op o).inrefs.count v = 1) :
    l.foldl (fun g op => g.replaceIn v v op) f =
      f.modVn v fun x => { x with descend := x.descend ++ l } := by
  induction l generalizing f with
  | nil =>
    unfold Funcdata.modVn
    simp only [List.foldl_nil, List.append_nil, Function.update_eq_self]
  | cons op l ih =>
    have hmap : ∀ l : List VarnodeId, (l.map fun u => if u = v then v else u) = l := by
      intro l
      refine (List.map_congr_left fun u _ => ?_).trans (List.map_id l)
      split_ifs with hu
      · exact hu.symm
      · rfl
    have hin : f.replaceIn v v op = f.modVn v fun x => { x with descend := x.descend ++ [op] } := by
      unfold Funcdata.replaceIn
      rw [h op List.mem_cons_self]
      unfold Funcdata.modOp
      simp only [hmap]
      rw [Function.update_eq_self]
      rfl
    rw [List.foldl_cons, hin, ih, modVn_modVn]
    · simp only [List.append_assoc, List.singleton_append]
    · intro o ho
      exact h o (List.mem_cons_of_mem _ ho)

theorem Linked.totalReplace (h : f.Linked) {old new : VarnodeId} (hold : old < f.numVarnodes)
    (hnew : new < f.numVarnodes) (hcan : f.CanReplace old new) :
    (f.totalReplace old new).Linked := by
  unfold Funcdata.totalReplace
  unfold CanReplace at hcan
  split_ifs at hcan with hne
  · subst hne
    have hself := foldl_replaceIn_self (f := f.modVn old fun x => { x with descend := [] })
      (v := old) (f.vn old).descend fun o ho => by
        have hpos := List.count_pos_iff.mpr (h.mem_descend.mp ho)
        have hone := hcan o
        change (f.op o).inrefs.count old = 1
        omega
    rw [hself, modVn_modVn]
    unfold Funcdata.modVn
    simp only [List.nil_append, Function.update_eq_self]
    exact h
  · have hclear := Books.setDescend h hold (fun _ => []) fun _ _ => Nat.zero_le _
    refine linked_foldl_replaceIn hne _ (hclear.congr fun v o => ?_) hnew
      (fun o ho => h.lt_of_mem_descend ho) (fun o => ?_) fun hc hs => ?_
    · rw [h.count]
      simp
    · rw [h.count]
      exact le_rfl
    · rw [modVn_vn, if_neg (Ne.symm hne)] at hc hs ⊢
      exact hcan hc hs

/-! Destroying ops. -/

theorem opDestroy_inrefs (f : Funcdata) (op o : OpId) : ((f.opDestroy op).op o).inrefs =
    if o = op then [] else (f.op o).inrefs := by
  have htake := takeInputs_op f op o
  unfold Funcdata.opDestroy
  generalize f.takeInputs op = f' at *
  have hin : (f'.op o).inrefs = if o = op then [] else (f.op o).inrefs := by
    rw [htake]
    split_ifs
    · rfl
    · rfl
  rw [← hin]
  dsimp only
  cases (f'.op op).output with
  | none =>
    rw [modOp_op]
    split_ifs with ho
    · rw [ho]
    · rfl
  | some out =>
    unfold Funcdata.deleteVarnode
    simp only [modOp_op, modVn_op, if_true]
    split_ifs with ho
    · rw [ho]
    · rfl

theorem opDestroy_numOps (f : Funcdata) (op : OpId) : (f.opDestroy op).numOps = f.numOps := by
  have htake := (foldl_eraseDescend_num (f.op op).inrefs op
    (f.modOp op fun x => { x with inrefs := [] })).1
  unfold Funcdata.opDestroy takeInputs
  dsimp only
  rw [modOp_numOps]
  split
  · exact htake
  · exact htake

theorem Linked.lt_of_followsDown (h : f.Linked) (hd : f.followsDown v = some op) :
    op < f.numOps := by
  unfold Funcdata.followsDown at hd
  split_ifs at hd
  exact Books.lt_of_defOp h (Option.eq_some_of_filter_eq_some hd)

theorem Linked.destroyAll {fuel : ℕ} {l : List OpId} {f f' : Funcdata} (h : f.Linked)
    (hl : ∀ o ∈ l, o < f.numOps) (he : destroyAll fuel f l = some f') : f'.Linked := by
  induction fuel generalizing f l with
  | zero =>
    cases l with
    | nil => exact Option.some.inj he ▸ h
    | cons o l => cases he
  | succ n ih =>
    cases l with
    | nil => exact Option.some.inj he ▸ h
    | cons o l =>
      refine ih (h.opDestroy (hl o List.mem_cons_self)) (fun d hd => ?_) he
      rw [opDestroy_numOps]
      rcases List.mem_append.mp hd with hd | hd
      · exact hl d (List.mem_cons_of_mem _ hd)
      · obtain ⟨v, -, hv⟩ := List.mem_filterMap.mp hd
        exact h.lt_of_followsDown hv

/-- The inputs of all ops. -/
def totalInputs (f : Funcdata) : ℕ := ((List.range f.numOps).map fun o => (f.op o).inrefs.length).sum

theorem totalInputs_opDestroy (f : Funcdata) (hop : op < f.numOps) :
    (f.opDestroy op).totalInputs + (f.op op).inrefs.length = f.totalInputs := by
  unfold totalInputs
  rw [opDestroy_numOps]
  have hmem : op ∈ List.range f.numOps := List.mem_range.mpr hop
  have hnodup : (List.range f.numOps).Nodup := List.nodup_range
  simp only [opDestroy_inrefs]
  generalize List.range f.numOps = l at *
  induction l with
  | nil => exact absurd hmem List.not_mem_nil
  | cons a l ih =>
    rw [List.nodup_cons] at hnodup
    simp only [List.map_cons, List.sum_cons]
    by_cases ha : a = op
    · subst ha
      have hrest : (l.map fun o => (if o = a then [] else (f.op o).inrefs).length) =
          l.map fun o => (f.op o).inrefs.length := by
        refine List.map_congr_left fun o ho => ?_
        rw [if_neg]
        intro he
        exact hnodup.1 (he ▸ ho)
      rw [if_pos rfl, hrest, List.length_nil]
      omega
    · have htail := ih ((List.mem_cons.mp hmem).resolve_left (Ne.symm ha)) hnodup.2
      rw [if_neg ha]
      omega

/-- The loop ends: an op is pushed for an input that goes. -/
theorem destroyAll_isSome {fuel : ℕ} {l : List OpId} {f : Funcdata} (h : f.Linked)
    (hl : ∀ o ∈ l, o < f.numOps) (hfuel : l.length + f.totalInputs ≤ fuel) :
    (Funcdata.destroyAll fuel f l).isSome = true := by
  induction fuel generalizing f l with
  | zero =>
    cases l with
    | nil => rfl
    | cons o l => simp at hfuel
  | succ n ih =>
    cases l with
    | nil => rfl
    | cons o l =>
      have ho := hl o List.mem_cons_self
      refine ih (h.opDestroy ho) (fun d hd => ?_) ?_
      · rw [opDestroy_numOps]
        rcases List.mem_append.mp hd with hd | hd
        · exact hl d (List.mem_cons_of_mem _ hd)
        · obtain ⟨v, -, hv⟩ := List.mem_filterMap.mp hd
          exact h.lt_of_followsDown hv
      · have htotal := totalInputs_opDestroy f ho
        have hpush := List.length_filterMap_le f.followsDown (f.op o).inrefs
        rw [List.length_cons] at hfuel
        rw [List.length_append]
        omega

theorem opDestroyRecursive_isSome (h : f.Linked) (hop : op < f.numOps) :
    (f.opDestroyRecursive op).isSome = true :=
  destroyAll_isSome h (fun _ ho => List.mem_singleton.mp ho ▸ hop) le_rfl

/-! Placing ops and changing opcodes. -/

theorem Linked.opSetOpcode (h : f.Linked) (op : OpId) (c : OpCode) : (f.opSetOpcode op c).Linked := by
  refine Books.of_same h rfl rfl (fun _ => ⟨rfl, rfl, rfl, rfl, rfl, rfl, rfl⟩) fun o => ?_
  unfold Funcdata.opSetOpcode
  rw [modOp_op]
  split_ifs with ho
  · subst ho
    exact ⟨rfl, rfl, rfl⟩
  · exact ⟨rfl, rfl, rfl⟩

theorem Linked.opInsertBefore (h : f.Linked) (newop follow : OpId) :
    (f.opInsertBefore newop follow).Linked := by
  obtain ⟨hvn, hnv, hno, hself, hother⟩ := opInsertBefore_spec f newop follow
  refine Books.of_same h hnv hno (fun v => ?_) fun o => ?_
  · rw [hvn]
    exact ⟨rfl, rfl, rfl, rfl, rfl, rfl, rfl⟩
  · by_cases ho : o = newop
    · subst ho
      rw [hself]
      exact ⟨rfl, rfl, rfl⟩
    · rw [hother o ho]
      exact ⟨rfl, rfl, rfl⟩

theorem Linked.opInsertBegin (h : f.Linked) (op : OpId) (b : BlockId) :
    (f.opInsertBegin op b).Linked := by
  refine Books.of_same h rfl rfl (fun _ => ⟨rfl, rfl, rfl, rfl, rfl, rfl, rfl⟩) fun o => ?_
  unfold Funcdata.opInsertBegin
  dsimp only
  rw [modBlock_op, modOp_op]
  split_ifs with ho
  · subst ho
    exact ⟨rfl, rfl, rfl⟩
  · exact ⟨rfl, rfl, rfl⟩

/-! Copies of a value, one for each reader. -/

theorem newOp_vn (f : Funcdata) (opcode : OpCode) (seqnum : SeqNum) (inputs : List VarnodeId)
    (hu : u < f.numVarnodes) : ((f.newOp opcode seqnum inputs).1.vn u).constant =
      (f.vn u).constant ∧ ((f.newOp opcode seqnum inputs).1.vn u).spacebase =
      (f.vn u).spacebase := by
  have hsame := uniqueConstants_vn inputs f hu
  change (((f.uniqueConstants inputs).2.foldl (fun g v => g.addDescend v f.numOps)
    (f.uniqueConstants inputs).1).vn u).constant = _ ∧ (((f.uniqueConstants inputs).2.foldl
      (fun g v => g.addDescend v f.numOps) (f.uniqueConstants inputs).1).vn u).spacebase = _
  rw [← hsame]
  generalize (f.uniqueConstants inputs).1 = g
  induction (f.uniqueConstants inputs).2 generalizing g with
  | nil => exact ⟨rfl, rfl⟩
  | cons v l ih =>
    obtain ⟨hc, hs⟩ := ih (g.addDescend v f.numOps)
    rw [List.foldl_cons, hc, hs]
    unfold Funcdata.addDescend
    rw [modVn_vn]
    split_ifs with he
    · subst he
      exact ⟨rfl, rfl⟩
    · exact ⟨rfl, rfl⟩

/-- `split_uses` may go on: the value that is copied is no constant, and its op still reads all the
other inputs it had. -/
structure Splitting (f : Funcdata) (vn : VarnodeId) (op : OpId) (inputs : List VarnodeId) : Prop where
  linked : f.Linked
  ltVn : vn < f.numVarnodes
  ltOp : op < f.numOps
  lt : ∀ v ∈ inputs, v < f.numVarnodes
  value : (f.vn vn).constant = true → (f.vn vn).spacebase = true
  reads : ∀ v ∈ inputs, v ≠ vn → v ∈ (f.op op).inrefs

theorem Splitting.unshared {vn : VarnodeId} {inputs : List VarnodeId}
    (h : f.Splitting vn op inputs) : f.Unshared inputs := by
  intro v hv hc hs hd
  by_cases he : v = vn
  · subst he
    have hsp := h.value hc
    rw [hs] at hsp
    cases hsp
  · have hmem := h.linked.mem_descend.mpr (h.reads v hv he)
    rw [hd] at hmem
    exact absurd hmem List.not_mem_nil

theorem modVn_spacebase (f : Funcdata) (w u : VarnodeId) {k : Varnode → Varnode}
    (hk : ∀ x, (k x).spacebase = x.spacebase) :
    ((f.modVn w k).vn u).spacebase = (f.vn u).spacebase := by
  rw [modVn_vn]
  split_ifs with he
  · rw [hk, he]
  · rfl

theorem opSetInput_vn (f : Funcdata) (op : OpId) (slot : ℕ) (v : VarnodeId)
    (hu : u < f.numVarnodes) : ((f.opSetInput op slot v).vn u).spacebase = (f.vn u).spacebase := by
  unfold Funcdata.opSetInput
  cases (f.op op).input slot with
  | none => rfl
  | some old =>
    dsimp only
    split_ifs
    · rfl
    · have hsame := uniqueConstantFor_vn f v hu
      rw [← hsame]
      unfold Funcdata.addDescend Funcdata.eraseDescend
      rw [modVn_spacebase, modOp_vn, modVn_spacebase]
      all_goals exact fun _ => rfl

theorem newOutput_vn (f : Funcdata) (op : OpId) (size : ℕ) (loc : Address)
    (hu : u < f.numVarnodes) : ((f.newOutput op size loc).1.vn u).spacebase =
      (f.vn u).spacebase := by
  unfold Funcdata.newOutput
  simp only [modOp_vn, modVn_vn, if_neg hu.ne, allocVarnode_vn]
  cases (f.op op).output with
  | none =>
    rw [Option.elim_none, if_neg hu.ne]
  | some old =>
    have hne : u ≠ (f.makeFree old).numVarnodes := hu.ne
    rw [Option.elim_some, if_neg hne]
    unfold makeFree
    rw [modVn_spacebase]
    exact fun _ => rfl

theorem Splitting.splitUse {vn : VarnodeId} {inputs : List VarnodeId}
    (h : f.Splitting vn op inputs) (useop : OpId) :
    (f.splitUse vn op inputs useop).Splitting vn op inputs := by
  unfold Funcdata.splitUse
  cases hslot : (f.op useop).inrefs.idxOf? vn with
  | none => exact h
  | some slot =>
    dsimp only
    have hnew := h.linked.newOp (f.op op).opcode ⟨(f.op op).seqnum.pc, f.numOps⟩ h.lt h.unshared
    have hnewop : f.numOps < f.numOps + 1 := Nat.lt_succ_self _
    obtain ⟨hkeep, hnum, ⟨ids, hself, -⟩, hother⟩ :=
      newOp_spec f (f.op op).opcode ⟨(f.op op).seqnum.pc, f.numOps⟩ h.lt
    have hvn := newOp_vn f (f.op op).opcode ⟨(f.op op).seqnum.pc, f.numOps⟩ inputs
      h.ltVn
    have hid : (f.newOp (f.op op).opcode ⟨(f.op op).seqnum.pc, f.numOps⟩ inputs).2 = f.numOps := rfl
    generalize f.newOp (f.op op).opcode ⟨(f.op op).seqnum.pc, f.numOps⟩ inputs = e at *
    obtain ⟨f₁, newop⟩ := e
    dsimp only at *
    subst hid
    have hout := hnew.newOutput (hnewop.trans_eq hnum.symm) (f.vn vn).size (f.vn vn).loc
    obtain ⟨hkeep', hnum', hid', hnv', hself', hother', -, -⟩ :=
      newOutput_spec f₁ f.numOps (f.vn vn).size (f.vn vn).loc (by rw [hself])
    have hspace := newOutput_vn f₁ f.numOps (f.vn vn).size (f.vn vn).loc
      (h.ltVn.trans_le hkeep.le)
    generalize f₁.newOutput f.numOps (f.vn vn).size (f.vn vn).loc = e at *
    obtain ⟨f₂, newvn⟩ := e
    dsimp only at *
    have hnewvn : newvn < f₂.numVarnodes := by
      rw [hid', hnv']
      exact Nat.lt_succ_self _
    have hset : (f₂.opSetInput useop slot newvn).Linked := hout.opSetInput hnewvn useop
    have hkeep'' := Keeps.opSetInput f₂ useop slot newvn
    have hle := hkeep.le.trans (hkeep'.le.trans hkeep''.le)
    have hvn₂ := h.ltVn.trans_le (hkeep.le.trans hkeep'.le)
    obtain ⟨hvn', hnv'', hno'', -, hother''⟩ :=
      opInsertBefore_spec (f₂.opSetInput useop slot newvn) f.numOps op
    have hne : op ≠ f.numOps := h.ltOp.ne
    refine ⟨hset.opInsertBefore _ _, ?_, ?_, fun v hv => ?_, ?_, fun v hv hvne => ?_⟩
    · rw [hnv'']
      exact h.ltVn.trans_le hle
    · rw [hno'', opSetInput_numOps, hnum', hnum]
      exact h.ltOp.trans (Nat.lt_succ_self _)
    · rw [hnv'']
      exact (h.lt v hv).trans_le hle
    · rw [hvn', opSetInput_vn f₂ useop slot newvn hvn₂, hspace, hvn.2,
        hkeep''.constant vn hvn₂, hkeep'.constant vn (h.ltVn.trans_le hkeep.le), hvn.1]
      exact h.value
    · rw [hother'' op hne]
      have hin : (f₂.op op).inrefs = (f.op op).inrefs := by
        rw [hother' op hne, hother op hne]
      have hreads : v ∈ (f₂.op op).inrefs := hin ▸ h.reads v hv hvne
      by_cases hu : op = useop
      · subst hu
        obtain ⟨hlt, hat, -⟩ := List.idxOf?_eq_some_iff.mp hslot
        have hlt₂ : slot < (f₂.op op).inrefs.length := by
          rw [hin]
          exact hlt
        obtain ⟨w, hrec, -⟩ := opSetInput_op_self f₂ op hlt₂ hnewvn
        rw [hrec]
        dsimp only
        -- the slot that changes held the copied value
        obtain ⟨i, hi, hat'⟩ := List.getElem_of_mem hreads
        refine List.mem_of_getElem? (i := i) ?_
        have hne' : slot ≠ i := by
          intro he
          subst he
          apply hvne
          rw [← hat', ← hat]
          simp only [hin]
        rw [List.getElem?_set_ne hne', List.getElem?_eq_getElem hi, hat']
      · rw [opSetInput_op_ne hu]
        exact hreads

theorem Linked.splitUses (h : f.Linked) (hv : v < f.numVarnodes) : (f.splitUses v).Linked := by
  unfold Funcdata.splitUses
  cases hdef : (f.vn v).defOp with
  | none => exact h
  | some op =>
    dsimp only
    split_ifs with hone
    · exact h
    · have hstart : f.Splitting v op (f.op op).inrefs := by
        refine ⟨h, hv, Books.lt_of_defOp h hdef, fun u hu => h.lt_of_mem_inrefs hu, fun hc => ?_,
          fun u hu _ => hu⟩
        by_contra hs
        exact hone (h.constant v hv hc (by simpa using hs))
      generalize (f.op op).inrefs = inputs at hstart
      generalize (f.vn v).descend = users
      have hrun : (users.foldl (fun g useop => g.splitUse v op inputs useop) f).Splitting v op
          inputs := by
        clear h hone hdef hv
        induction users generalizing f with
        | nil => exact hstart
        | cons useop l ih => exact ih (hstart.splitUse useop)
      exact hrun.linked

end Funcdata
end Mosura
