import Mosura.DefUseRuns
import Mosura.ExpandLoadSound
import Mosura.RefinePartition
import Mosura.RuleValues

/-! The bytes of pieces and of wholes, and what the splitting of some varnodes leaves alone. -/

namespace Mosura

/-! Bytes. -/

theorem shiftLeft_or {a b k : ℕ} (h : b < 2 ^ k) : a <<< k ||| b = b + 2 ^ k * a := by
  rw [← Nat.shiftLeft_add_eq_or_of_lt h, Nat.shiftLeft_eq, Nat.add_comm, Nat.mul_comm]

/-- The bytes of two stretches, one behind the other. -/
theorem readMem_append (be : Bool) (mem : ℕ → BitVec 8) (addr m n : ℕ) :
    readMem be mem addr (m + n) =
      if be then readMem be mem addr m <<< (8 * n) ||| readMem be mem (addr + m) n
      else readMem be mem (addr + m) n <<< (8 * m) ||| readMem be mem addr m := by
  have hbytes : ((List.range (m + n)).map fun i => mem (addr + i)) =
      ((List.range m).map fun i => mem (addr + i)) ++
        (List.range n).map fun i => mem (addr + m + i) := by
    rw [List.range_add, List.map_append, List.map_map]
    congr 1
    apply List.map_congr_left
    intro i _
    exact congrArg mem (Nat.add_assoc ..).symm
  have hpow (k : ℕ) : (2 : ℕ) ^ (8 * k) = 256 ^ k := pow_mul 2 8 k
  cases be with
  | false =>
    rw [if_neg Bool.false_ne_true, shiftLeft_or (readMem_lt false mem addr m), hpow]
    unfold readMem
    dsimp only
    rw [if_neg Bool.false_ne_true, if_neg Bool.false_ne_true, if_neg Bool.false_ne_true, hbytes,
      Lib.fromLe_append, List.length_map, List.length_range]
  | true =>
    rw [if_pos rfl, shiftLeft_or (readMem_lt true mem (addr + m) n), hpow]
    unfold readMem
    dsimp only
    rw [if_pos rfl, if_pos rfl, if_pos rfl, hbytes, List.reverse_append, Lib.fromLe_append,
      List.length_reverse, List.length_map, List.length_range]

/-- How many of the `size` bytes of a whole are less significant than its `n` bytes from `k` on. -/
def lessSignificant (be : Bool) (size k n : ℕ) : ℕ := if be then size - k - n else k

/-- A stretch of the bytes is cut out by a shift. -/
theorem readMem_slice (be : Bool) (mem : ℕ → BitVec 8) (addr : ℕ) {size k n : ℕ}
    (h : k + n ≤ size) :
    (readMem be mem addr size >>> (8 * lessSignificant be size k n)) % 2 ^ (8 * n) =
      readMem be mem (addr + k) n := by
  unfold lessSignificant
  cases be with
  | false =>
    have hsize : size = k + (size - k) := by omega
    have hlow := readMem_low false mem (addr + k) (n := size - k) (k := n) (by omega)
    rw [if_neg Bool.false_ne_true] at hlow ⊢
    conv_lhs => rw [hsize, readMem_append, if_neg Bool.false_ne_true]
    rw [shiftLeft_or (readMem_lt false mem addr k), Nat.shiftRight_eq_div_pow,
      Nat.add_mul_div_left _ _ (Nat.two_pow_pos _),
      Nat.div_eq_of_lt (readMem_lt false mem addr k), Nat.zero_add]
    exact hlow
  | true =>
    have hsize : size = (k + n) + (size - k - n) := by omega
    have hlow := readMem_low true mem addr (n := k + n) (k := n) (by omega)
    rw [if_pos rfl] at hlow ⊢
    rw [Nat.add_sub_cancel] at hlow
    have hlt := readMem_lt true mem (addr + (k + n)) (size - k - n)
    conv_lhs =>
      enter [1, 1]
      rw [hsize, readMem_append, if_pos rfl]
    rw [shiftLeft_or hlt, Nat.shiftRight_eq_div_pow, Nat.add_mul_div_left _ _ (Nat.two_pow_pos _),
      Nat.div_eq_of_lt hlt, Nat.zero_add]
    exact hlow

namespace Funcdata

variable {f g g' h : Funcdata} {vs ws : List VarnodeId} {op o : OpId} {v u : VarnodeId}
  {env : VarnodeId → ℕ}

/-! What the splitting of some varnodes leaves alone. -/

/-- `g` is `f` after the splitting of the varnodes `vs`: the ops of `f` read and write all others
where they did, and the new ops put pieces together or cut them out, of the varnodes `vs` and of new
ones, in the order of their ids. -/
structure Frame (f g : Funcdata) (vs : List VarnodeId) : Prop where
  linked0 : f.Linked
  linked : g.Linked
  keeps : Keeps f g
  spaces : g.spaces = f.spaces
  numOps : f.numOps ≤ g.numOps
  opcode : ∀ o < f.numOps, (g.op o).opcode = (f.op o).opcode
  arity : ∀ o < f.numOps, (g.op o).inrefs.length = (f.op o).inrefs.length
  input : ∀ o slot u, u ∉ vs → (f.op o).input slot = some u → (g.op o).input slot = some u
  readers : ∀ o, ∀ u < f.numVarnodes, u ∉ vs → (g.op o).inrefs.count u = (f.op o).inrefs.count u
  output : ∀ o u, u ∉ vs → (f.op o).output = some u → (g.op o).output = some u
  outputs : ∀ o, ∀ u < f.numVarnodes, (g.op o).output = some u → (f.op o).output = some u
  newIn : ∀ o, f.numOps ≤ o → ∀ u ∈ (g.op o).inrefs, f.numVarnodes ≤ u ∨ u ∈ vs
  newOut : ∀ o, f.numOps ≤ o → ∀ u, (g.op o).output = some u → f.numVarnodes ≤ u
  plain : ∀ o u, f.numVarnodes ≤ u → (g.op o).output = some u → (g.vn u).constant = false
  simple : ∀ o, f.numOps ≤ o → o < g.numOps →
    ((g.op o).opcode = .piece ∨ (g.op o).opcode = .subpiece) ∧ (g.op o).inrefs.length = 2
  ordered : ∀ o, f.numOps ≤ o → ∀ u ∈ (g.op o).inrefs, ∀ o', o ≤ o' → (g.op o').output ≠ some u

theorem Linked.output_lt (h : f.Linked) (ho : (f.op o).output = some u) : u < f.numVarnodes := by
  by_contra hlt
  have hd := (h.defs u o).mpr ho
  rw [(h.blankVn u (not_lt.mp hlt)).2] at hd
  cases hd

theorem Frame.refl (h : f.Linked) : Frame f f [] where
  linked0 := h
  linked := h
  keeps := Keeps.refl f
  spaces := rfl
  numOps := le_rfl
  opcode _ _ := rfl
  arity _ _ := rfl
  input _ _ _ _ hu := hu
  readers _ _ _ _ := rfl
  output _ _ _ hu := hu
  outputs _ _ _ hu := hu
  newIn o ho u hu := by
    rw [(h.blankOp o ho).1] at hu
    exact absurd hu List.not_mem_nil
  newOut o ho u hu := by
    rw [(h.blankOp o ho).2] at hu
    cases hu
  plain _ _ hle hu := absurd (h.output_lt hu) (not_lt.mpr hle)
  simple o ho hlt := absurd hlt (not_lt.mpr ho)
  ordered o ho u hu := by
    rw [(h.blankOp o ho).1] at hu
    exact absurd hu List.not_mem_nil

/-- An edit that leaves the ops alone, but for their places. -/
theorem Frame.of_ops (h : Frame f g vs) (hlinked : g'.Linked) (hkeeps : Keeps g g')
    (hspaces : g'.spaces = g.spaces) (hnum : g'.numOps = g.numOps)
    (hop : ∀ o, (g'.op o).opcode = (g.op o).opcode ∧ (g'.op o).inrefs = (g.op o).inrefs ∧
      (g'.op o).output = (g.op o).output) : Frame f g' vs where
  linked0 := h.linked0
  linked := hlinked
  keeps := h.keeps.trans hkeeps
  spaces := hspaces.trans h.spaces
  numOps := hnum ▸ h.numOps
  opcode o ho := (hop o).1.trans (h.opcode o ho)
  arity o ho := (congrArg List.length (hop o).2.1).trans (h.arity o ho)
  input o slot u hu hin := by
    have hg := h.input o slot u hu hin
    unfold PcodeOp.input at hg ⊢
    rwa [(hop o).2.1]
  readers o u hu hvs := by
    rw [(hop o).2.1]
    exact h.readers o u hu hvs
  output o u hvs hout := by
    rw [(hop o).2.2]
    exact h.output o u hvs hout
  outputs o u hu hout := by
    rw [(hop o).2.2] at hout
    exact h.outputs o u hu hout
  newIn o ho u hu := by
    rw [(hop o).2.1] at hu
    exact h.newIn o ho u hu
  newOut o ho u hu := by
    rw [(hop o).2.2] at hu
    exact h.newOut o ho u hu
  plain o u hle hu := by
    rw [(hop o).2.2] at hu
    exact (hkeeps.constant u (h.linked.output_lt hu)).trans (h.plain o u hle hu)
  simple o ho hlt := by
    rw [(hop o).1, (hop o).2.1]
    exact h.simple o ho (hnum ▸ hlt)
  ordered o ho u hu o' ho' := by
    rw [(hop o').2.2]
    rw [(hop o).2.1] at hu
    exact h.ordered o ho u hu o' ho'

theorem Frame.allocVarnode (h : Frame f g vs) (size : ℕ) (loc : Address) (c : Bool) :
    Frame f (g.allocVarnode size loc c) vs :=
  h.of_ops (Books.allocVarnode h.linked size loc c) (Keeps.allocVarnode g size loc c) rfl rfl
    fun _ => ⟨rfl, rfl, rfl⟩

theorem Frame.newUnique (h : Frame f g vs) (size : ℕ) : Frame f (g.newUnique size).1 vs :=
  h.of_ops (h.linked.newUnique size)
    ((Keeps.allocVarnode g size _ false).trans (Keeps.of_eq rfl rfl)) rfl rfl
    fun _ => ⟨rfl, rfl, rfl⟩

theorem newOp_spaces (f : Funcdata) (opcode : OpCode) (seqnum : SeqNum) (inputs : List VarnodeId) :
    (f.newOp opcode seqnum inputs).1.spaces = f.spaces := by
  have hfold : ∀ (ids : List VarnodeId) (g : Funcdata),
      (ids.foldl (fun g v => g.addDescend v f.numOps) g).spaces = g.spaces := by
    intro ids
    induction ids with
    | nil => exact fun g => rfl
    | cons v ids ih => exact fun g => ih (g.addDescend v f.numOps)
  have hconst : ∀ (l : List VarnodeId) (g : Funcdata),
      (g.uniqueConstants l).1.spaces = g.spaces := by
    intro l
    induction l with
    | nil => exact fun g => rfl
    | cons v l ih =>
      intro g
      change ((g.uniqueConstantFor v).1.uniqueConstants l).1.spaces = g.spaces
      rw [ih]
      rcases uniqueConstantFor_cases g v with he | ⟨-, he⟩
      · rw [he]
      · rw [he]
        rfl
  exact (hfold _ _).trans (hconst inputs f)

/-- What a new op reads is given to it, or a clone of a constant. -/
theorem newOp_inrefs (f : Funcdata) (opcode : OpCode) (seqnum : SeqNum) {inputs : List VarnodeId}
    (hu : u ∈ ((f.newOp opcode seqnum inputs).1.op f.numOps).inrefs) :
    u ∈ inputs ∨ f.numVarnodes ≤ u := by
  have hself : (f.newOp opcode seqnum inputs).1.op f.numOps =
      { opcode := opcode, seqnum := seqnum, inrefs := (f.uniqueConstants inputs).2 } :=
    Function.update_self ..
  rw [hself] at hu
  exact uniqueConstants_mem hu

theorem Frame.newOp (h : Frame f g vs) {opcode : OpCode} (seqnum : SeqNum) {a b : VarnodeId}
    (hcode : opcode = .piece ∨ opcode = .subpiece) (hlt : ∀ v ∈ [a, b], v < g.numVarnodes)
    (hnew : ∀ v ∈ [a, b], f.numVarnodes ≤ v ∨ v ∈ vs) (hun : g.Unshared [a, b]) :
    Frame f (g.newOp opcode seqnum [a, b]).1 vs := by
  obtain ⟨hkeeps, hnum, ⟨ids, hself, hst⟩, hother⟩ := newOp_spec g opcode seqnum hlt
  have hmem (u : VarnodeId) (hu : u ∈ ids) : f.numVarnodes ≤ u ∨ u ∈ vs := by
    rcases @newOp_inrefs u g opcode seqnum [a, b] (by rwa [hself]) with hin | hge
    · exact hnew u hin
    · exact .inl (h.keeps.le.trans hge)
  have hblank := h.linked.blankOp g.numOps le_rfl
  constructor
  · exact h.linked0
  · exact h.linked.newOp opcode seqnum hlt hun
  · exact h.keeps.trans hkeeps
  · exact (newOp_spaces ..).trans h.spaces
  · rw [hnum]
    exact h.numOps.trans (Nat.le_succ _)
  · intro o ho
    rw [hother o (ho.trans_le h.numOps).ne]
    exact h.opcode o ho
  · intro o ho
    rw [hother o (ho.trans_le h.numOps).ne]
    exact h.arity o ho
  · intro o slot u hu hin
    have hg := h.input o slot u hu hin
    have hne : o ≠ g.numOps := by
      rintro rfl
      rw [PcodeOp.input, hblank.1] at hg
      cases hg
    rwa [hother o hne]
  · intro o u hu hvs
    rw [← h.readers o u hu hvs]
    by_cases hne : o = g.numOps
    · subst hne
      rw [hself, hblank.1]
      refine List.count_eq_zero_of_not_mem fun hin => ?_
      rcases hmem u hin with hge | hin
      · exact absurd hu (not_lt.mpr hge)
      · exact hvs hin
    · rw [hother o hne]
  · intro o u hvs hout
    have hg := h.output o u hvs hout
    have hne : o ≠ g.numOps := by
      rintro rfl
      rw [hblank.2] at hg
      cases hg
    rwa [hother o hne]
  · intro o u hu hout
    by_cases hne : o = g.numOps
    · subst hne
      rw [hself] at hout
      cases hout
    · rw [hother o hne] at hout
      exact h.outputs o u hu hout
  · intro o ho u hu
    by_cases hne : o = g.numOps
    · subst hne
      rw [hself] at hu
      exact hmem u hu
    · rw [hother o hne] at hu
      exact h.newIn o ho u hu
  · intro o ho u hu
    by_cases hne : o = g.numOps
    · subst hne
      rw [hself] at hu
      cases hu
    · rw [hother o hne] at hu
      exact h.newOut o ho u hu
  · intro o u hle hu
    by_cases hne : o = g.numOps
    · subst hne
      rw [hself] at hu
      cases hu
    · rw [hother o hne] at hu
      exact (hkeeps.constant u (h.linked.output_lt hu)).trans (h.plain o u hle hu)
  · intro o ho hlt
    by_cases hne : o = g.numOps
    · subst hne
      rw [hself]
      exact ⟨hcode, hst.length_eq.symm⟩
    · rw [hother o hne]
      refine h.simple o ho ?_
      rw [hnum] at hlt
      omega
  · intro o ho u hu o' ho'
    by_cases hne' : o' = g.numOps
    · subst hne'
      rw [hself]
      exact (Option.some_ne_none _).symm
    · rw [hother o' hne']
      by_cases hne : o = g.numOps
      · subst hne
        rw [(h.linked.blankOp o' ho').2]
        exact (Option.some_ne_none _).symm
      · rw [hother o hne] at hu
        exact h.ordered o ho u hu o' ho'

/-- An op gets an output that has no definition yet. -/
theorem Frame.setOutput (h : Frame f g vs) (hlinked : g'.Linked) (hkeeps : Keeps g g')
    (hspaces : g'.spaces = g.spaces) (hnum : g'.numOps = g.numOps)
    (hself : g'.op op = { g.op op with output := some v }) (hother : ∀ o, o ≠ op → g'.op o = g.op o)
    (hv : f.numVarnodes ≤ v) (hc : (g'.vn v).constant = false)
    (hold : ∀ u, (g.op op).output = some u → u < f.numVarnodes → u ∈ vs)
    (hord : ∀ o, f.numOps ≤ o → o ≤ op → v ∉ (g.op o).inrefs) : Frame f g' vs := by
  have hsame (o : OpId) :
      (g'.op o).opcode = (g.op o).opcode ∧ (g'.op o).inrefs = (g.op o).inrefs := by
    by_cases ho : o = op
    · subst ho
      rw [hself]
      exact ⟨rfl, rfl⟩
    · rw [hother o ho]
      exact ⟨rfl, rfl⟩
  have hout (o : OpId) (u : VarnodeId) (hu : (g'.op o).output = some u) :
      (o = op ∧ u = v) ∨ (g.op o).output = some u := by
    by_cases ho : o = op
    · subst ho
      rw [hself] at hu
      exact .inl ⟨rfl, (Option.some.inj hu).symm⟩
    · rw [hother o ho] at hu
      exact .inr hu
  constructor
  · exact h.linked0
  · exact hlinked
  · exact h.keeps.trans hkeeps
  · exact hspaces.trans h.spaces
  · exact hnum ▸ h.numOps
  · intro o ho
    exact (hsame o).1.trans (h.opcode o ho)
  · intro o ho
    exact (congrArg List.length (hsame o).2).trans (h.arity o ho)
  · intro o slot u hu hin
    have hg := h.input o slot u hu hin
    unfold PcodeOp.input at hg ⊢
    rwa [(hsame o).2]
  · intro o u hu hvs
    rw [(hsame o).2]
    exact h.readers o u hu hvs
  · intro o u hvs ho
    have hg := h.output o u hvs ho
    have hne : o ≠ op := by
      rintro rfl
      exact hvs (hold u hg (h.linked0.output_lt ho))
    rwa [hother o hne]
  · intro o u hu ho
    rcases hout o u ho with ⟨-, rfl⟩ | ho
    · exact absurd hu (not_lt.mpr hv)
    · exact h.outputs o u hu ho
  · intro o ho u hu
    rw [(hsame o).2] at hu
    exact h.newIn o ho u hu
  · intro o ho u hu
    rcases hout o u hu with ⟨-, rfl⟩ | hu
    · exact hv
    · exact h.newOut o ho u hu
  · intro o u hle hu
    rcases hout o u hu with ⟨-, rfl⟩ | hu
    · exact hc
    · exact (hkeeps.constant u (h.linked.output_lt hu)).trans (h.plain o u hle hu)
  · intro o ho hlt
    rw [(hsame o).1, (hsame o).2]
    exact h.simple o ho (hnum ▸ hlt)
  · intro o ho u hu o' ho' hu'
    rw [(hsame o).2] at hu
    rcases hout o' u hu' with ⟨rfl, rfl⟩ | hu'
    · exact hord o ho ho' hu
    · exact h.ordered o ho u hu o' ho' hu'

theorem opSetOutput_spaces (f : Funcdata) (op : OpId) (v : VarnodeId) :
    (f.opSetOutput op v).spaces = f.spaces := by
  have hunset : (f.unsetOutput op).spaces = f.spaces := by
    unfold unsetOutput
    cases (f.op op).output with
    | none => rfl
    | some old => rfl
  have htake (g : Funcdata) : (g.takeDef v).spaces = g.spaces := by
    unfold takeDef
    cases (g.vn v).defOp with
    | none => rfl
    | some old => rfl
  unfold opSetOutput
  split_ifs
  · rfl
  · exact (htake _).trans hunset

theorem Frame.opSetOutput (h : Frame f g vs) (hop : op < g.numOps) (hlt : v < g.numVarnodes)
    (hdef : (g.vn v).defOp = none) (hv : f.numVarnodes ≤ v) (hc : (g.vn v).constant = false)
    (hold : ∀ u, (g.op op).output = some u → u < f.numVarnodes → u ∈ vs)
    (hord : ∀ o, f.numOps ≤ o → o ≤ op → v ∉ (g.op o).inrefs) :
    Frame f (g.opSetOutput op v) vs := by
  have hkeeps := Keeps.opSetOutput g op v
  refine h.setOutput (h.linked.opSetOutput hop hlt) hkeeps (opSetOutput_spaces g op v)
    (opSetOutput_numOps g op v) ?_ (fun o ho => ?_) hv ((hkeeps.constant v hlt).trans hc) hold hord
  · rw [opSetOutput_op hdef, if_pos rfl]
  · rw [opSetOutput_op hdef, if_neg ho]

theorem newOutputUnique_spaces (f : Funcdata) (op : OpId) (size : ℕ) :
    (f.newOutputUnique op size).1.spaces = f.spaces := by
  unfold newOutputUnique newOutput
  dsimp only
  cases (f.op op).output with
  | none => rfl
  | some old => rfl

theorem Linked.newOutputUnique (h : f.Linked) (hop : op < f.numOps) (size : ℕ) :
    (f.newOutputUnique op size).1.Linked := by
  have hmoved : Linked { f with uniqueOffset := f.uniqueOffset + BitVec.ofNat 64 (max size 1) } :=
    ⟨h.blankVn, h.blankOp, h.links, h.dead, h.defs, h.insert, h.written, h.constant⟩
  exact hmoved.newOutput hop size ⟨f.spaces.unique, f.uniqueOffset⟩

theorem Frame.newOutputUnique (h : Frame f g vs) (hop : op < g.numOps)
    (hout : (g.op op).output = none) (size : ℕ) : Frame f (g.newOutputUnique op size).1 vs := by
  obtain ⟨hkeeps, hnum, -, hself, hother, -, hc⟩ := newOutputUnique_spec g op size hout
  refine h.setOutput (h.linked.newOutputUnique hop size) hkeeps (newOutputUnique_spaces g op size)
    hnum hself hother h.keeps.le hc (fun u hu => ?_) fun o _ _ hmem => ?_
  · rw [hout] at hu
    cases hu
  · exact absurd (h.linked.lt_of_mem_inrefs hmem) (lt_irrefl _)

theorem opInsertBefore_spaces (f : Funcdata) (newop follow : OpId) :
    (f.opInsertBefore newop follow).spaces = f.spaces := by
  unfold opInsertBefore
  cases (f.op follow).parent with
  | none => rfl
  | some b => rfl

theorem Frame.opInsertBefore (h : Frame f g vs) (newop follow : OpId) :
    Frame f (g.opInsertBefore newop follow) vs := by
  obtain ⟨hvn, hnv, hno, hself, hother⟩ := opInsertBefore_spec g newop follow
  refine h.of_ops (h.linked.opInsertBefore newop follow) (Keeps.of_eq hvn hnv)
    (opInsertBefore_spaces g newop follow) hno fun o => ?_
  by_cases ho : o = newop
  · subst ho
    rw [hself]
    exact ⟨rfl, rfl, rfl⟩
  · rw [hother o ho]
    exact ⟨rfl, rfl, rfl⟩

theorem opInsertAfter_num (f : Funcdata) (newop prev : OpId) :
    (f.opInsertAfter newop prev).numOps = f.numOps ∧
      (f.opInsertAfter newop prev).spaces = f.spaces := by
  unfold opInsertAfter
  dsimp only
  cases (f.op (f.effectOp prev)).parent with
  | none => exact ⟨rfl, rfl⟩
  | some b => exact ⟨rfl, rfl⟩

theorem Frame.opInsertAfter (h : Frame f g vs) (newop prev : OpId) :
    Frame f (g.opInsertAfter newop prev) vs := by
  obtain ⟨hvn, hnv, parent, hself, hother⟩ := opInsertAfter_spec g newop prev
  obtain ⟨hno, hsp⟩ := opInsertAfter_num g newop prev
  have hop (o : OpId) : ((g.opInsertAfter newop prev).op o).opcode = (g.op o).opcode ∧
      ((g.opInsertAfter newop prev).op o).inrefs = (g.op o).inrefs ∧
      ((g.opInsertAfter newop prev).op o).output = (g.op o).output ∧
      ((g.opInsertAfter newop prev).op o).dead = (g.op o).dead := by
    by_cases ho : o = newop
    · subst ho
      rw [hself]
      exact ⟨rfl, rfl, rfl, rfl⟩
    · rw [hother o ho]
      exact ⟨rfl, rfl, rfl, rfl⟩
  refine h.of_ops (Books.of_same h.linked hnv hno (fun v => ?_) fun o => ⟨(hop o).2.1, (hop o).2.2⟩)
    (Keeps.of_eq hvn hnv) hsp hno fun o => ⟨(hop o).1, (hop o).2.1, (hop o).2.2.1⟩
  rw [hvn]
  exact ⟨rfl, rfl, rfl, rfl, rfl, rfl, rfl⟩

theorem Frame.opInsertBegin (h : Frame f g vs) (newop : OpId) (b : BlockId) :
    Frame f (g.opInsertBegin newop b) vs := by
  refine h.of_ops (h.linked.opInsertBegin newop b) (Keeps.of_eq rfl rfl) rfl rfl fun o => ?_
  unfold Funcdata.opInsertBegin
  dsimp only
  rw [modBlock_op, modOp_op]
  split_ifs with ho
  · subst ho
    exact ⟨rfl, rfl, rfl⟩
  · exact ⟨rfl, rfl, rfl⟩

theorem Frame.deleteVarnode (h : Frame f g vs) (hdef : (g.vn v).defOp = none) :
    Frame f (g.deleteVarnode v) vs :=
  h.of_ops (h.linked.deleteVarnode hdef) (Keeps.modVn g v _ rfl rfl rfl rfl) rfl rfl
    fun _ => ⟨rfl, rfl, rfl⟩

/-! Another varnode is read. -/

/-- The reads `l'` are `l` with `w` in place of some reads of `v`. -/
abbrev Reread (v w : VarnodeId) : List VarnodeId → List VarnodeId → Prop :=
  List.Forall₂ fun u u' => u' = u ∨ u = v ∧ u' = w

theorem Reread.getElem? {w : VarnodeId} {l l' : List VarnodeId} (h : Reread v w l l') {i : ℕ}
    (hu : l[i]? = some u) : l'[i]? = some u ∨ u = v ∧ l'[i]? = some w := by
  induction h generalizing i with
  | nil => cases hu
  | cons hx _ ih =>
    cases i with
    | zero =>
      obtain rfl := Option.some.inj hu
      exact hx.imp (congrArg some) fun hx => ⟨hx.1, congrArg some hx.2⟩
    | succ i => exact ih hu

theorem Reread.count {w : VarnodeId} {l l' : List VarnodeId} (h : Reread v w l l') (hv : u ≠ v)
    (hw : u ≠ w) : l'.count u = l.count u := by
  induction h with
  | nil => rfl
  | cons hx _ ih =>
    rw [List.count_cons, List.count_cons, ih]
    rcases hx with rfl | ⟨rfl, rfl⟩
    · rfl
    · rw [beq_eq_false_iff_ne.mpr hv.symm, beq_eq_false_iff_ne.mpr hw.symm]

theorem reread_set {w : VarnodeId} {l : List VarnodeId} {i : ℕ} (hi : l[i]? = some v) :
    Reread v w l (l.set i w) := by
  induction l generalizing i with
  | nil => cases hi
  | cons x l ih =>
    cases i with
    | zero =>
      obtain rfl := Option.some.inj hi
      exact .cons (.inr ⟨rfl, rfl⟩) (List.forall₂_same.mpr fun _ _ => .inl rfl)
    | succ i => exact .cons (.inl rfl) (ih hi)

theorem Frame.reread (h : Frame f g vs) {w : VarnodeId} (hv : v ∈ vs) (hw : f.numVarnodes ≤ w)
    (hlinked : g'.Linked) (hkeeps : Keeps g g') (hspaces : g'.spaces = g.spaces)
    (hnum : g'.numOps = g.numOps)
    (hop : ∀ o, (g'.op o).opcode = (g.op o).opcode ∧ (g'.op o).output = (g.op o).output)
    (hin : ∀ o, Reread v w (g.op o).inrefs (g'.op o).inrefs)
    (hnew : ∀ o, f.numOps ≤ o → (g'.op o).inrefs = (g.op o).inrefs) : Frame f g' vs where
  linked0 := h.linked0
  linked := hlinked
  keeps := h.keeps.trans hkeeps
  spaces := hspaces.trans h.spaces
  numOps := hnum ▸ h.numOps
  opcode o ho := (hop o).1.trans (h.opcode o ho)
  arity o ho := (hin o).length_eq.symm.trans (h.arity o ho)
  input o slot u hu hslot := by
    rcases (hin o).getElem? (h.input o slot u hu hslot) with hg | ⟨rfl, -⟩
    · exact hg
    · exact absurd hv hu
  readers o u hu hvs := by
    have hne : u ≠ v := fun he => hvs (he ▸ hv)
    rw [(hin o).count hne (hu.trans_le hw).ne]
    exact h.readers o u hu hvs
  output o u hvs hout := by
    rw [(hop o).2]
    exact h.output o u hvs hout
  outputs o u hu hout := by
    rw [(hop o).2] at hout
    exact h.outputs o u hu hout
  newIn o ho u hu := by
    rw [hnew o ho] at hu
    exact h.newIn o ho u hu
  newOut o ho u hu := by
    rw [(hop o).2] at hu
    exact h.newOut o ho u hu
  plain o u hle hu := by
    rw [(hop o).2] at hu
    exact (hkeeps.constant u (h.linked.output_lt hu)).trans (h.plain o u hle hu)
  simple o ho hlt := by
    rw [(hop o).1, hnew o ho]
    exact h.simple o ho (hnum ▸ hlt)
  ordered o ho u hu o' ho' := by
    rw [(hop o').2]
    rw [hnew o ho] at hu
    exact h.ordered o ho u hu o' ho'

theorem opSetInput_spaces (f : Funcdata) (op : OpId) (slot : ℕ) (v : VarnodeId) :
    (f.opSetInput op slot v).spaces = f.spaces := by
  unfold Funcdata.opSetInput
  cases (f.op op).input slot with
  | none => rfl
  | some old =>
    dsimp only
    split_ifs
    · rfl
    · rcases uniqueConstantFor_cases f v with he | ⟨-, he⟩
      · rw [he]
        rfl
      · rw [he]
        rfl

/-- A varnode that is no constant is read as it is. -/
theorem opSetInput_op (f : Funcdata) (op : OpId) {slot : ℕ} {w : VarnodeId}
    (hslot : slot < (f.op op).inrefs.length) (hw : w < f.numVarnodes)
    (hc : (f.vn w).constant = false) (o : OpId) : (f.opSetInput op slot w).op o =
      if o = op then { f.op op with inrefs := (f.op op).inrefs.set slot w } else f.op o := by
  split_ifs with ho
  · subst ho
    obtain ⟨u, hself, hst⟩ := opSetInput_op_self f o hslot hw
    rcases hst.same with ⟨rfl, -⟩ | ⟨-, hcw⟩
    · exact hself
    · rw [hc] at hcw
      cases hcw
  · exact opSetInput_op_ne ho slot w

theorem Frame.opSetInput (h : Frame f g vs) {slot : ℕ} {w : VarnodeId} (hop : op < f.numOps)
    (hslot : (g.op op).input slot = some v) (hv : v ∈ vs) (hw : f.numVarnodes ≤ w)
    (hlt : w < g.numVarnodes) (hc : (g.vn w).constant = false) :
    Frame f (g.opSetInput op slot w) vs := by
  have hlen : slot < (g.op op).inrefs.length := (List.getElem?_eq_some_iff.mp hslot).1
  have hrec := opSetInput_op g op hlen hlt hc
  refine h.reread hv hw (h.linked.opSetInput hlt op) (Keeps.opSetInput g op slot w)
    (opSetInput_spaces g op slot w) (opSetInput_numOps g op slot w) (fun o => ?_) (fun o => ?_)
    fun o ho => ?_
  · rw [hrec]
    split_ifs with ho
    · subst ho
      exact ⟨rfl, rfl⟩
    · exact ⟨rfl, rfl⟩
  · rw [hrec]
    split_ifs with ho
    · subst ho
      exact reread_set hslot
    · exact List.forall₂_same.mpr fun _ _ => .inl rfl
  · rw [hrec, if_neg (hop.trans_le ho).ne']

/-- The op reads `new` wherever it has read `old`. -/
def rereads (old new : VarnodeId) (x : PcodeOp) : PcodeOp :=
  { x with inrefs := x.inrefs.map fun u => if u = old then new else u }

theorem rereads_of_notMem {old new : VarnodeId} {x : PcodeOp} (h : old ∉ x.inrefs) :
    rereads old new x = x := by
  have hmap : (x.inrefs.map fun u => if u = old then new else u) = x.inrefs := by
    refine (List.map_congr_left fun u hu => ?_).trans (List.map_id _)
    exact if_neg fun he : u = old => h (he ▸ hu)
  unfold rereads
  rw [hmap]

theorem rereads_rereads (old new : VarnodeId) (x : PcodeOp) :
    rereads old new (rereads old new x) = rereads old new x := by
  unfold rereads
  dsimp only
  rw [List.map_map]
  congr 1
  apply List.map_congr_left
  intro u _
  dsimp only [Function.comp]
  split_ifs with hu hn
  · rfl
  · rfl
  · rfl

/-- All reads of `old` become reads of `new`. -/
theorem totalReplace_op (h : f.Linked) (old new : VarnodeId) (o : OpId) :
    (f.totalReplace old new).op o = rereads old new (f.op o) := by
  have hfold : ∀ (l : List OpId) (g : Funcdata),
      (l.foldl (fun g op => g.replaceIn old new op) g).op o =
        if o ∈ l then rereads old new (g.op o) else g.op o := by
    intro l
    induction l with
    | nil => exact fun g => (if_neg List.not_mem_nil).symm
    | cons x l ih =>
      intro g
      have hrec : (g.replaceIn old new x).op o =
          if o = x then rereads old new (g.op o) else g.op o := by
        unfold replaceIn
        rw [modVn_op, modOp_op]
        split_ifs with ho
        · rw [ho]
          rfl
        · rfl
      rw [List.foldl_cons, ih, hrec]
      by_cases ho : o = x
      · rw [if_pos ho, rereads_rereads, ite_self, if_pos (ho ▸ List.mem_cons_self)]
      · have hmem : o ∈ x :: l ↔ o ∈ l := List.mem_cons.trans (or_iff_right ho)
        rw [if_neg ho, if_congr hmem rfl rfl]
  refine (hfold (f.vn old).descend (f.modVn old fun x => { x with descend := [] })).trans ?_
  rw [modVn_op]
  split_ifs with ho
  · rfl
  · rw [h.mem_descend] at ho
    rw [rereads_of_notMem ho]

theorem totalReplace_rest (f : Funcdata) (old new : VarnodeId) :
    Keeps f (f.totalReplace old new) ∧ (f.totalReplace old new).spaces = f.spaces ∧
      (f.totalReplace old new).numOps = f.numOps ∧
      ∀ u, ((f.totalReplace old new).vn u).defOp = (f.vn u).defOp := by
  have hstep (g : Funcdata) (u : VarnodeId) (l : List OpId) :
      Keeps g (g.modVn u fun x => { x with descend := l }) := Keeps.modVn g u _ rfl rfl rfl rfl
  have hfold : ∀ (l : List OpId) (g : Funcdata),
      Keeps g (l.foldl (fun g op => g.replaceIn old new op) g) ∧
        (l.foldl (fun g op => g.replaceIn old new op) g).spaces = g.spaces ∧
        (l.foldl (fun g op => g.replaceIn old new op) g).numOps = g.numOps ∧
        ∀ u, ((l.foldl (fun g op => g.replaceIn old new op) g).vn u).defOp = (g.vn u).defOp := by
    intro l
    induction l with
    | nil => exact fun g => ⟨Keeps.refl g, rfl, rfl, fun _ => rfl⟩
    | cons x l ih =>
      intro g
      obtain ⟨hk, hs, hn, hd⟩ := ih (g.replaceIn old new x)
      refine ⟨Keeps.trans ?_ hk, hs, hn, fun u => (hd u).trans ?_⟩
      · exact (Keeps.modOp g x _).trans (Keeps.modVn _ new _ rfl rfl rfl rfl)
      · unfold replaceIn
        rw [modVn_vn, modOp_vn]
        split_ifs with hu
        · rw [hu]
        · rfl
  obtain ⟨hk, hs, hn, hd⟩ := hfold (f.vn old).descend
    (f.modVn old fun x => { x with descend := [] })
  refine ⟨(hstep f old []).trans hk, hs, hn, fun u => (hd u).trans ?_⟩
  rw [modVn_vn]
  split_ifs with hu
  · rw [hu]
  · rfl

theorem Frame.totalReplace (h : Frame f g vs) {w : VarnodeId} (hv : v ∈ vs)
    (hvlt : v < g.numVarnodes) (hw : f.numVarnodes ≤ w) (hlt : w < g.numVarnodes) (hne : v ≠ w)
    (hc : (g.vn w).constant = false) (hnone : ∀ o, f.numOps ≤ o → v ∉ (g.op o).inrefs) :
    Frame f (g.totalReplace v w) vs := by
  have hcan : g.CanReplace v w := by
    unfold CanReplace
    rw [if_neg hne, hc]
    exact fun hf => nomatch hf
  obtain ⟨hk, hs, hn, -⟩ := totalReplace_rest g v w
  have hop := totalReplace_op h.linked v w
  refine h.reread hv hw (h.linked.totalReplace hvlt hlt hcan) hk hs hn (fun o => ?_) (fun o => ?_)
    fun o ho => ?_
  · rw [hop]
    exact ⟨rfl, rfl⟩
  · rw [hop]
    refine List.forall₂_map_right_iff.mpr (List.forall₂_same.mpr fun u _ => ?_)
    split_ifs with hu
    · exact .inr ⟨hu, rfl⟩
    · exact .inl rfl
  · rw [hop, rereads_of_notMem (hnone o ho)]

/-! Splittings one after the other. -/

theorem Frame.mono (h : Frame f g vs) (hsub : ∀ v ∈ vs, v ∈ ws) : Frame f g ws where
  linked0 := h.linked0
  linked := h.linked
  keeps := h.keeps
  spaces := h.spaces
  numOps := h.numOps
  opcode := h.opcode
  arity := h.arity
  input o slot u hu := h.input o slot u fun hvs => hu (hsub u hvs)
  readers o u hu hws := h.readers o u hu fun hvs => hws (hsub u hvs)
  output o u hu := h.output o u fun hvs => hu (hsub u hvs)
  outputs := h.outputs
  newIn o ho u hu := (h.newIn o ho u hu).imp id (hsub u)
  newOut := h.newOut
  plain := h.plain
  simple := h.simple
  ordered := h.ordered

/-- An op that reads none of the varnodes that are split reads what it did. -/
theorem Frame.inrefs (h : Frame f g vs) (ho : o < f.numOps) (hvs : ∀ u ∈ (f.op o).inrefs, u ∉ vs) :
    (g.op o).inrefs = (f.op o).inrefs := by
  apply List.ext_getElem?
  intro i
  cases hu : (f.op o).inrefs[i]? with
  | none =>
    rw [List.getElem?_eq_none_iff] at hu ⊢
    rwa [h.arity o ho]
  | some u => exact h.input o i u (hvs u (List.mem_of_getElem? hu)) hu

/-- The new ops read none of the varnodes that are split later. -/
theorem Frame.notMem_later (h : Frame f g vs) (hws : ∀ w ∈ ws, w < f.numVarnodes ∧ w ∉ vs)
    (ho : f.numOps ≤ o) : ∀ u ∈ (g.op o).inrefs, u ∉ ws := by
  intro u hu hin
  obtain ⟨hlt, hvs⟩ := hws u hin
  rcases h.newIn o ho u hu with hge | hmem
  · exact absurd hlt (not_lt.mpr hge)
  · exact hvs hmem

theorem Frame.trans (h : Frame f g vs) (h' : Frame g g' ws)
    (hws : ∀ w ∈ ws, w < f.numVarnodes ∧ w ∉ vs) : Frame f g' (vs ++ ws) := by
  have hnew (o : OpId) (ho : f.numOps ≤ o) (hlt : o < g.numOps) :
      (g'.op o).inrefs = (g.op o).inrefs := h'.inrefs hlt (h.notMem_later hws ho)
  constructor
  · exact h.linked0
  · exact h'.linked
  · exact h.keeps.trans h'.keeps
  · exact h'.spaces.trans h.spaces
  · exact h.numOps.trans h'.numOps
  · intro o ho
    exact (h'.opcode o (ho.trans_le h.numOps)).trans (h.opcode o ho)
  · intro o ho
    exact (h'.arity o (ho.trans_le h.numOps)).trans (h.arity o ho)
  · intro o slot u hu hin
    obtain ⟨hvs, hws⟩ := not_or.mp (mt List.mem_append.mpr hu)
    exact h'.input o slot u hws (h.input o slot u hvs hin)
  · intro o u hlt hu
    obtain ⟨hvs, hws⟩ := not_or.mp (mt List.mem_append.mpr hu)
    exact (h'.readers o u (hlt.trans_le h.keeps.le) hws).trans (h.readers o u hlt hvs)
  · intro o u hu hout
    obtain ⟨hvs, hws⟩ := not_or.mp (mt List.mem_append.mpr hu)
    exact h'.output o u hws (h.output o u hvs hout)
  · intro o u hlt hout
    exact h.outputs o u hlt (h'.outputs o u (hlt.trans_le h.keeps.le) hout)
  · intro o ho u hu
    rw [List.mem_append]
    by_cases hlt : o < g.numOps
    · rw [hnew o ho hlt] at hu
      exact (h.newIn o ho u hu).imp id .inl
    · rcases h'.newIn o (not_lt.mp hlt) u hu with hge | hin
      · exact .inl (h.keeps.le.trans hge)
      · exact .inr (.inr hin)
  · intro o ho u hu
    by_cases hlt : u < g.numVarnodes
    · exact h.newOut o ho u (h'.outputs o u hlt hu)
    · exact h.keeps.le.trans (not_lt.mp hlt)
  · intro o u hle hu
    by_cases hlt : u < g.numVarnodes
    · exact (h'.keeps.constant u hlt).trans (h.plain o u hle (h'.outputs o u hlt hu))
    · exact h'.plain o u (not_lt.mp hlt) hu
  · intro o ho hlt
    by_cases hold : o < g.numOps
    · rw [h'.opcode o hold, hnew o ho hold]
      exact h.simple o ho hold
    · exact h'.simple o (not_lt.mp hold) hlt
  · intro o ho u hu o' ho' hout
    by_cases hold : o < g.numOps
    · rw [hnew o ho hold] at hu
      exact h.ordered o ho u hu o' ho' (h'.outputs o' u (h.linked.lt_of_mem_inrefs hu) hout)
    · exact h'.ordered o (not_lt.mp hold) u hu o' ho' hout

/-! The values of the new ops. -/

/-- The ops from `n` on have computed their outputs. -/
def Computes (n : ℕ) (g : Funcdata) (env : VarnodeId → ℕ) : Prop :=
  ∀ o, n ≤ o → ∀ out, (g.op o).output = some out →
    g.resultOf env o out = some (g.valueOf env out)

theorem Computes.mono {m n : ℕ} (hc : Computes m g env) (hmn : m ≤ n) : Computes n g env :=
  fun o ho => hc o (hmn.trans ho)

theorem Keeps.valueOf (h : Keeps f g) (hv : v < f.numVarnodes) :
    g.valueOf env v = f.valueOf env v :=
  congrArg Prod.snd ((@Keeps.operandOf _ _ env) h hv)

/-- What new ops have computed before a later splitting, they have computed. -/
theorem Frame.computes (h : Frame f g vs) (h' : Frame g g' ws)
    (hws : ∀ w ∈ ws, w < f.numVarnodes ∧ w ∉ vs) (hc : Computes f.numOps g' env) :
    Computes f.numOps g env := by
  intro o ho out hout
  have hlt := h.linked.lt_of_output hout
  have hnot : out ∉ ws := fun hin =>
    absurd (hws out hin).1 (not_lt.mpr (h.newOut o ho out hout))
  have hres := hc o ho out (h'.output o out hnot hout)
  have houtlt := h.linked.output_lt hout
  have hins := h'.inrefs hlt (h.notMem_later hws ho)
  have hops : g'.operandsOf env o = g.operandsOf env o := by
    unfold operandsOf
    rw [hins]
    apply List.map_congr_left
    intro u hu
    exact h'.keeps.operandOf (h.linked.lt_of_mem_inrefs hu)
  unfold resultOf at hres ⊢
  rwa [h'.opcode o hlt, hops, h'.keeps.size out houtlt, h'.keeps.valueOf houtlt] at hres

/-- A PIECE or a SUBPIECE has a result for all operands. -/
theorem Frame.result (h : Frame f g vs) (env : VarnodeId → ℕ) (ho : f.numOps ≤ o)
    (hlt : o < g.numOps) (out : VarnodeId) : ∃ r, g.resultOf env o out = some r := by
  obtain ⟨hcode, hlen⟩ := h.simple o ho hlt
  obtain ⟨a, b, hin⟩ := List.length_eq_two.mp hlen
  rw [resultOf_two hin]
  rcases hcode with hcode | hcode
  · rw [hcode]
    exact ⟨_, rfl⟩
  · rw [hcode]
    exact ⟨_, rfl⟩

/-- All values of the other varnodes go with values of the new ops' outputs. -/
theorem Frame.exists_computes (h : Frame f g vs) (env : VarnodeId → ℕ) :
    ∃ env', (∀ v, (∀ o, f.numOps ≤ o → (g.op o).output ≠ some v) → env' v = env v) ∧
      Computes f.numOps g env' := by
  -- op after op
  have hstep : ∀ k, ∃ env', (∀ v, (∀ o, f.numOps ≤ o → (g.op o).output ≠ some v) →
      env' v = env v) ∧ ∀ o, f.numOps ≤ o → o < f.numOps + k → ∀ out,
        (g.op o).output = some out → g.resultOf env' o out = some (g.valueOf env' out) := by
    intro k
    induction k with
    | zero => exact ⟨env, fun _ _ => rfl, fun o ho hlt => absurd hlt (not_lt.mpr ho)⟩
    | succ k ih =>
      obtain ⟨env', hold, hdone⟩ := ih
      cases hout : (g.op (f.numOps + k)).output with
      | none =>
        refine ⟨env', hold, fun o ho hlt out ho' => ?_⟩
        have hne : o ≠ f.numOps + k := by
          rintro rfl
          rw [hout] at ho'
          cases ho'
        exact hdone o ho (lt_of_le_of_ne (Nat.lt_succ_iff.mp hlt) hne) out ho'
      | some w =>
        have hle : f.numOps ≤ f.numOps + k := Nat.le_add_right _ _
        obtain ⟨r, hr⟩ := h.result env' hle (h.linked.lt_of_output hout) w
        have hwc := h.plain _ w (h.newOut _ hle w hout) hout
        -- nothing before reads the new value
        have hsame (o : OpId) (ho : f.numOps ≤ o) (hok : o ≤ f.numOps + k) (out : VarnodeId) :
            g.resultOf (Function.update env' w r) o out = g.resultOf env' o out := by
          have hops : g.operandsOf (Function.update env' w r) o = g.operandsOf env' o := by
            unfold operandsOf operandOf valueOf
            apply List.map_congr_left
            intro u hu
            have hne : u ≠ w := fun he => h.ordered o ho u hu _ hok (he ▸ hout)
            rw [Function.update_of_ne hne]
          unfold resultOf
          rw [hops]
        refine ⟨Function.update env' w r, fun v hv => ?_, fun o ho hlt out ho' => ?_⟩
        · have hne : v ≠ w := fun he => hv _ hle (he ▸ hout)
          rw [Function.update_of_ne hne]
          exact hold v hv
        · rw [hsame o ho (Nat.lt_succ_iff.mp hlt)]
          by_cases hne : o = f.numOps + k
          · subst hne
            obtain rfl := Option.some.inj (hout.symm.trans ho')
            rw [hr]
            unfold valueOf
            rw [hwc, if_neg Bool.false_ne_true, Function.update_self]
          · rw [hdone o ho (lt_of_le_of_ne (Nat.lt_succ_iff.mp hlt) hne) out ho']
            have hne' : out ≠ w := by
              rintro rfl
              have hd := (h.linked.defs out o).mpr ho'
              rw [(h.linked.defs out _).mpr hout] at hd
              exact hne (Option.some.inj hd).symm
            unfold valueOf
            rw [Function.update_of_ne hne']
  obtain ⟨env', hold, hdone⟩ := hstep g.numOps
  refine ⟨env', hold, fun o ho out hout => hdone o ho ?_ out hout⟩
  exact (h.linked.lt_of_output hout).trans_le (Nat.le_add_left _ _)

end Funcdata
end Mosura
