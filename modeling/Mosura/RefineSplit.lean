import Mosura.RefineFrame

/-! How a varnode is split into pieces, and what pieces are put together to and cut from. -/

namespace Mosura
namespace Funcdata

open Lib Refine

variable {f g : Funcdata} {vs : List VarnodeId} {range : MemRange} {refine : List ℕ}
  {wordsize : SpaceId → ℕ} {v : VarnodeId} {i n : ℕ}

/-! The pieces. -/

/-- The address `i` bytes into the range. -/
def pieceAddr (range : MemRange) (i : ℕ) : Address := ⟨range.space, range.off + BitVec.ofNat 64 i⟩

/-- `v` is a varnode for the `n` bytes of the range from `i` on. -/
structure IsPiece (g : Funcdata) (range : MemRange) (i n : ℕ) (v : VarnodeId) : Prop where
  lt : v < g.numVarnodes
  loc : (g.vn v).loc = pieceAddr range i
  size : (g.vn v).size = n
  plain : (g.vn v).constant = false

theorem IsPiece.keeps {g' : Funcdata} (h : IsPiece g range i n v) (hk : Keeps g g') :
    IsPiece g' range i n v :=
  ⟨h.lt.trans_le hk.le, (hk.loc v h.lt).trans h.loc, (hk.size v h.lt).trans h.size,
    (hk.constant v h.lt).trans h.plain⟩

/-- New varnodes for consecutive pieces from `i` on. -/
def layPieces (range : MemRange) : Funcdata → ℕ → List ℕ → Funcdata
  | g, _, [] => g
  | g, i, n :: l => layPieces range (g.newVarnode n (pieceAddr range i)).1 (i + n) l

/-- What new pieces leave alone. -/
structure Laid (g g' : Funcdata) (k : ℕ) : Prop where
  vn : ∀ u < g.numVarnodes, g'.vn u = g.vn u
  numVarnodes : g'.numVarnodes = g.numVarnodes + k
  op : g'.op = g.op
  numOps : g'.numOps = g.numOps
  spaces : g'.spaces = g.spaces

theorem layPieces_spec (range : MemRange) (l : List ℕ) (g : Funcdata) (i : ℕ) :
    Laid g (layPieces range g i l) l.length ∧
      Along (IsPiece (layPieces range g i l) range) i l (List.range' g.numVarnodes l.length) := by
  induction l generalizing g i with
  | nil => exact ⟨⟨fun _ _ => rfl, rfl, rfl, rfl, rfl⟩, trivial⟩
  | cons n l ih =>
    obtain ⟨hlaid, halong⟩ := ih (g.newVarnode n (pieceAddr range i)).1 (i + n)
    have hnew : (g.newVarnode n (pieceAddr range i)).1.vn g.numVarnodes =
        g.freshVarnode n (pieceAddr range i) false := by
      change (g.allocVarnode _ _ _).vn _ = _
      rw [allocVarnode_vn, if_pos rfl]
    have hnum : (g.newVarnode n (pieceAddr range i)).1.numVarnodes = g.numVarnodes + 1 := rfl
    have hold := hlaid.vn g.numVarnodes (by rw [hnum]; exact Nat.lt_succ_self _)
    refine ⟨⟨fun u hu => ?_, ?_, hlaid.op, hlaid.numOps, hlaid.spaces⟩, ⟨?_, ?_, ?_, ?_⟩, ?_⟩
    · refine (hlaid.vn u (hu.trans (Nat.lt_succ_self _))).trans ?_
      change (g.allocVarnode _ _ _).vn u = _
      rw [allocVarnode_vn, if_neg hu.ne]
    · refine hlaid.numVarnodes.trans ?_
      rw [hnum, List.length_cons]
      omega
    · change g.numVarnodes < (layPieces range _ (i + n) l).numVarnodes
      rw [hlaid.numVarnodes, hnum]
      omega
    · change ((layPieces range _ (i + n) l).vn g.numVarnodes).loc = _
      rw [hold, hnew]
      rfl
    · change ((layPieces range _ (i + n) l).vn g.numVarnodes).size = _
      rw [hold, hnew]
      rfl
    · change ((layPieces range _ (i + n) l).vn g.numVarnodes).constant = _
      rw [hold, hnew]
      rfl
    · exact halong

theorem Frame.layPieces (h : Frame f g vs) (range : MemRange) (i : ℕ) (l : List ℕ) :
    Frame f (layPieces range g i l) vs := by
  induction l generalizing g i with
  | nil => exact h
  | cons n l ih => exact ih (h.allocVarnode n (pieceAddr range i) false) (i + n)

/-! The splitting. -/

theorem wrapOffset_of_le {highest : U64} {i : ℕ} (h : i ≤ highest.toNat) :
    (wrapOffset highest (BitVec.ofNat 64 i)).toNat = i := by
  have hlt : i < 2 ^ 64 := h.trans_lt highest.isLt
  have hnat : (BitVec.ofNat 64 i).toNat = i := by
    rw [BitVec.toNat_ofNat, Nat.mod_eq_of_lt hlt]
  unfold wrapOffset
  rw [if_pos (BitVec.le_def.mpr (by rwa [hnat])), hnat]

/-- The range is no longer than its space. -/
def InSpace (f : Funcdata) (wordsize : SpaceId → ℕ) (range : MemRange) (size : ℕ) : Prop :=
  size ≤ ((f.spaces.get range.space).highest (wordsize range.space)).toNat + 1

theorem splitLoop_eq {l : List ℕ} (hleads : Leads refine i l) (hn : n ≤ l.sum) {fuel : ℕ}
    (hfuel : n < fuel) (hspace : InSpace g wordsize range refine.length) {curoff : U64} {cutsz : ℕ}
    (hoff : curoff + BitVec.ofNat 64 cutsz = range.off + BitVec.ofNat 64 i) :
    splitLoop wordsize range.space range.off refine fuel g curoff cutsz n =
      some (layPieces range g i (chop l n), List.range' g.numVarnodes (chop l n).length) := by
  induction l generalizing i n fuel g curoff cutsz with
  | nil =>
    obtain rfl := Nat.le_zero.mp hn
    obtain ⟨fuel, rfl⟩ := Nat.exists_eq_succ_of_ne_zero hfuel.ne'
    rw [splitLoop, if_pos rfl]
    rfl
  | cons c cs ih =>
    obtain ⟨fuel, rfl⟩ := Nat.exists_eq_succ_of_ne_zero (Nat.ne_zero_of_lt hfuel)
    rw [splitLoop, chop]
    split_ifs with h0
    · rfl
    · obtain ⟨hcell, hc, hnext⟩ := hleads
      have hi : i < refine.length := (List.getElem?_eq_some_iff.mp hcell).1
      have hdiff : range.off + BitVec.ofNat 64 i - range.off = BitVec.ofNat 64 i := by ring
      have hwrap := wrapOffset_of_le
        (show i ≤ ((g.spaces.get range.space).highest (wordsize range.space)).toNat from
          Nat.le_of_lt_succ (hi.trans_le hspace))
      simp only [hoff, hdiff, hwrap, hcell, Option.bind_eq_bind, Option.bind_some]
      rw [List.sum_cons] at hn
      have hrest : splitLoop wordsize range.space range.off refine fuel
          (g.newVarnode (min c n) (pieceAddr range i)).1 (range.off + BitVec.ofNat 64 i) (min c n)
          (n - min c n) = some (layPieces range (g.newVarnode (min c n) (pieceAddr range i)).1
            (i + min c n) (chop cs (n - c)), List.range' (g.numVarnodes + 1)
              (chop cs (n - c)).length) := by
        rcases Nat.lt_or_ge c n with hlt | hge
        · rw [Nat.min_eq_left hlt.le]
          refine ih (g := (g.newVarnode c (pieceAddr range i)).1) (i := i + c) (n := n - c)
            hnext (by omega) (by omega) hspace ?_
          rw [BitVec.ofNat_add, add_assoc]
        · -- the last piece
          obtain ⟨fuel, rfl⟩ := Nat.exists_eq_succ_of_ne_zero (n := fuel) (by omega)
          rw [Nat.min_eq_right hge, Nat.sub_self, splitLoop, if_pos rfl, Nat.sub_eq_zero_of_le hge,
            chop_zero]
          rfl
      change (splitLoop wordsize range.space range.off refine fuel
        (g.newVarnode (min c n) (pieceAddr range i)).1 _ _ _ >>= _) = _
      rw [hrest]
      rfl

/-- The storage of a varnode of the range. -/
theorem loc_eq (hspace : (f.vn v).loc.space = range.space) :
    (f.vn v).loc = pieceAddr range (distance f range.off v) := by
  unfold pieceAddr distance
  rw [BitVec.ofNat_toNat, BitVec.setWidth_eq]
  have hoff : range.off + ((f.vn v).loc.offset - range.off) = (f.vn v).loc.offset := by ring
  rw [hoff, ← hspace]

/-- A varnode of the range is in one piece, or it is split into new varnodes for its pieces. -/
theorem splitVarnodeByRefinement_eq {l : List ℕ} (hspace : (f.vn v).loc.space = range.space)
    (hpos : 0 < (f.vn v).size) (hleads : Leads refine (distance f range.off v) l)
    (hn : (f.vn v).size ≤ l.sum) (hin : InSpace f wordsize range refine.length) :
    (chop l (f.vn v).size = [(f.vn v).size] ∧
      f.splitVarnodeByRefinement wordsize v range.off refine = some (f, [])) ∨
    (2 ≤ (chop l (f.vn v).size).length ∧
      f.splitVarnodeByRefinement wordsize v range.off refine =
        some (layPieces range f (distance f range.off v) (chop l (f.vn v).size),
          List.range' f.numVarnodes (chop l (f.vn v).size).length)) := by
  cases l with
  | nil => exact absurd hpos (not_lt.mpr hn)
  | cons c cs =>
    obtain ⟨hcell, hc, hnext⟩ := hleads
    have hi := (List.getElem?_eq_some_iff.mp hcell).1
    have hwrap := wrapOffset_of_le
      (show distance f range.off v ≤
          ((f.spaces.get range.space).highest (wordsize range.space)).toNat from
        Nat.le_of_lt_succ (hi.trans_le hin))
    have hdist : BitVec.ofNat 64 (distance f range.off v) = (f.vn v).loc.offset - range.off := by
      unfold distance
      rw [BitVec.ofNat_toNat, BitVec.setWidth_eq]
    rw [hdist] at hwrap
    have hloc := loc_eq (f := f) hspace
    unfold splitVarnodeByRefinement
    simp only [hspace, hwrap, hcell, Option.bind_eq_bind, Option.bind_some]
    rw [chop, if_neg hpos.ne']
    by_cases hle : (f.vn v).size ≤ c
    · rw [if_pos hle, Nat.min_eq_right hle, Nat.sub_eq_zero_of_le hle, chop_zero]
      exact .inl ⟨rfl, rfl⟩
    · have hlt := not_le.mp hle
      rw [List.sum_cons] at hn
      rw [if_neg hle, Nat.min_eq_left hlt.le]
      refine .inr ⟨?_, ?_⟩
      · have hsum := sum_chop (l := cs) (n := (f.vn v).size - c) (by omega)
        cases hchop : chop cs ((f.vn v).size - c) with
        | nil =>
          rw [hchop, List.sum_nil] at hsum
          omega
        | cons x xs => exact Nat.succ_le_succ (Nat.succ_le_succ (Nat.zero_le _))
      · have hoff : (f.vn v).loc.offset + BitVec.ofNat 64 c =
            range.off + BitVec.ofNat 64 (distance f range.off v + c) := by
          rw [hloc, BitVec.ofNat_add, ← add_assoc]
          rfl
        have hloop := splitLoop_eq (g := (f.newVarnode c (f.vn v).loc).1) hnext
          (show (f.vn v).size - c ≤ cs.sum by omega)
          (show (f.vn v).size - c < (f.vn v).size + 1 by omega) hin hoff
        change (splitLoop wordsize range.space range.off refine _ (f.newVarnode c (f.vn v).loc).1
          _ _ _ >>= _) = _
        rw [hloop, layPieces, ← hloc]
        rfl

/-! One new op. -/

/-- `g'` is `g` with one more op, which reads `ins` and writes `w`. -/
structure NewOp (g g' : Funcdata) (code : OpCode) (ins : List VarnodeId) (w : VarnodeId) :
    Prop where
  keeps : Keeps g g'
  numOps : g'.numOps = g.numOps + 1
  other : ∀ o, o ≠ g.numOps → g'.op o = g.op o
  opcode : (g'.op g.numOps).opcode = code
  output : (g'.op g.numOps).output = some w
  operands : ∀ env, g'.operandsOf env g.numOps = ins.map (g.operandOf env)
  reads : ∀ u ∈ (g'.op g.numOps).inrefs, u ∈ ins ∨ g.numVarnodes ≤ u

/-- A varnode that can become the output of a new op. -/
structure Blank (f g : Funcdata) (w : VarnodeId) : Prop where
  lt : w < g.numVarnodes
  fresh : f.numVarnodes ≤ w
  plain : (g.vn w).constant = false
  undefined : ∀ o, (g.op o).output ≠ some w
  unread : ∀ o, f.numOps ≤ o → w ∉ (g.op o).inrefs

variable {g' : Funcdata} {code : OpCode} {ins : List VarnodeId} {a b w : VarnodeId} {o op : OpId}
  {env : VarnodeId → ℕ}

theorem Linked.defOp_none (h : g.Linked) (hw : ∀ o, (g.op o).output ≠ some w) :
    (g.vn w).defOp = none := by
  cases hd : (g.vn w).defOp with
  | none => rfl
  | some d => exact absurd ((h.defs w d).mp hd) (hw d)

/-- A blank varnode stays blank as another one gets its definition. -/
theorem Blank.newOp {u : VarnodeId} (h : Blank f g u) (hn : NewOp g g' code ins w) (hu : u ≠ w)
    (hins : u ∉ ins) : Blank f g' u where
  lt := h.lt.trans_le hn.keeps.le
  fresh := h.fresh
  plain := (hn.keeps.constant u h.lt).trans h.plain
  undefined o hout := by
    by_cases ho : o = g.numOps
    · subst ho
      rw [hn.output] at hout
      exact hu (Option.some.inj hout).symm
    · rw [hn.other o ho] at hout
      exact h.undefined o hout
  unread o ho hmem := by
    by_cases hne : o = g.numOps
    · subst hne
      rcases hn.reads u hmem with hin | hge
      · exact hins hin
      · exact absurd h.lt (not_lt.mpr hge)
    · rw [hn.other o hne] at hmem
      exact h.unread o ho hmem

theorem map_operandOf {ids : List VarnodeId} (h : List.Forall₂ (Stands g g') ins ids)
    (env : VarnodeId → ℕ) : ids.map (g'.operandOf env) = ins.map (g.operandOf env) := by
  induction h with
  | nil => rfl
  | cons hv _ ih => rw [List.map_cons, List.map_cons, ih, hv.operandOf]

theorem newOp_operands (seqnum : SeqNum) (hlt : ∀ v ∈ ins, v < g.numVarnodes)
    (hk : Keeps (g.newOp code seqnum ins).1 g')
    (hin : (g'.op g.numOps).inrefs = ((g.newOp code seqnum ins).1.op g.numOps).inrefs)
    (env : VarnodeId → ℕ) : g'.operandsOf env g.numOps = ins.map (g.operandOf env) := by
  obtain ⟨-, -, ⟨ids, hself, hst⟩, -⟩ := newOp_spec g code seqnum hlt
  unfold operandsOf
  rw [hin, hself]
  exact map_operandOf (hst.imp fun v u hu => hu.keeps hk) env

/-- A PIECE or a SUBPIECE for a blank varnode. -/
theorem Frame.newOp_setOutput (h : Frame f g vs) (seqnum : SeqNum)
    (hcode : code = .piece ∨ code = .subpiece) (hlt : ∀ v ∈ [a, b], v < g.numVarnodes)
    (hnew : ∀ v ∈ [a, b], f.numVarnodes ≤ v ∨ v ∈ vs) (hun : g.Unshared [a, b])
    (hw : Blank f g w) (hne : w ∉ [a, b]) :
    Frame f ((g.newOp code seqnum [a, b]).1.opSetOutput g.numOps w) vs ∧
      NewOp g ((g.newOp code seqnum [a, b]).1.opSetOutput g.numOps w) code [a, b] w := by
  have hframe := h.newOp seqnum hcode hlt hnew hun
  have hreads := fun u => @newOp_inrefs u g code seqnum [a, b]
  have hoperands := fun (k : Funcdata) hk hin => (@newOp_operands _ k code)
    seqnum hlt hk hin
  obtain ⟨hkeeps, hnum, ⟨ids, hself, -⟩, hother⟩ := newOp_spec g code seqnum hlt
  generalize (g.newOp code seqnum [a, b]).1 = g1 at *
  have hlt1 := hw.lt.trans_le hkeeps.le
  have hc1 := (hkeeps.constant w hw.lt).trans hw.plain
  have hundef : ∀ o, (g1.op o).output ≠ some w := by
    intro o ho
    by_cases hone : o = g.numOps
    · subst hone
      rw [hself] at ho
      cases ho
    · rw [hother o hone] at ho
      exact hw.undefined o ho
  have hdef := hframe.linked.defOp_none hundef
  have hrec (o : OpId) := (@opSetOutput_op g1 g.numOps o) hdef
  refine ⟨hframe.opSetOutput (hnum ▸ Nat.lt_succ_self _) hlt1 hdef hw.fresh hc1 (fun u hu _ => ?_)
    fun o ho _ hmem => ?_, ?_⟩
  · rw [hself] at hu
    cases hu
  · by_cases hone : o = g.numOps
    · subst hone
      rcases hreads w hmem with hin | hge
      · exact hne hin
      · exact absurd hw.lt (not_lt.mpr hge)
    · rw [hother o hone] at hmem
      exact hw.unread o ho hmem
  · have hk2 := Keeps.opSetOutput g1 g.numOps w
    refine ⟨hkeeps.trans hk2, (opSetOutput_numOps ..).trans hnum, fun o ho => ?_, ?_, ?_, ?_, ?_⟩
    · rw [hrec, if_neg ho, hother o ho]
    · rw [hrec, if_pos rfl, hself]
    · rw [hrec, if_pos rfl]
    · exact hoperands _ hk2 (by rw [hrec, if_pos rfl])
    · intro u hu
      rw [hrec, if_pos rfl] at hu
      exact hreads u hu

/-- A PIECE or a SUBPIECE for a new varnode. -/
theorem Frame.newOp_newOutput (h : Frame f g vs) (seqnum : SeqNum) (size : ℕ)
    (hcode : code = .piece ∨ code = .subpiece) (hlt : ∀ v ∈ [a, b], v < g.numVarnodes)
    (hnew : ∀ v ∈ [a, b], f.numVarnodes ≤ v ∨ v ∈ vs) (hun : g.Unshared [a, b]) :
    ∃ g' w, (g.newOp code seqnum [a, b]).1.newOutputUnique g.numOps size = (g', w) ∧
      Frame f g' vs ∧ NewOp g g' code [a, b] w ∧ g.numVarnodes ≤ w ∧ w < g'.numVarnodes ∧
      (g'.vn w).size = size ∧ (g'.vn w).constant = false := by
  have hframe := h.newOp seqnum hcode hlt hnew hun
  have hreads := fun u => @newOp_inrefs u g code seqnum [a, b]
  have hoperands := fun (k : Funcdata) hk hin => (@newOp_operands _ k code)
    seqnum hlt hk hin
  obtain ⟨hkeeps, hnum, ⟨ids, hself, -⟩, hother⟩ := newOp_spec g code seqnum hlt
  generalize (g.newOp code seqnum [a, b]).1 = g1 at *
  have hout : (g1.op g.numOps).output = none := by rw [hself]
  obtain ⟨hk2, hnum2, hnv2, hself2, hother2, hsize2, hc2⟩ :=
    newOutputUnique_spec g1 g.numOps size hout
  refine ⟨(g1.newOutputUnique g.numOps size).1, g1.numVarnodes, rfl,
    hframe.newOutputUnique (hnum ▸ Nat.lt_succ_self _) hout size,
    ⟨hkeeps.trans hk2, hnum2.trans hnum, fun o ho => ?_, ?_, ?_, ?_, ?_⟩, hkeeps.le, ?_, hsize2,
    hc2⟩
  · rw [hother2 o ho, hother o ho]
  · rw [hself2, hself]
  · rw [hself2]
  · exact hoperands _ hk2 (by rw [hself2])
  · intro u hu
    rw [hself2] at hu
    exact hreads u hu
  · rw [hnv2]
    exact Nat.lt_succ_self _

/-- An op goes to its place in a block. -/
structure Placed (g g' : Funcdata) (op : OpId) : Prop where
  vn : g'.vn = g.vn
  numVarnodes : g'.numVarnodes = g.numVarnodes
  numOps : g'.numOps = g.numOps
  self : ∃ parent, g'.op op = { g.op op with parent := parent }
  other : ∀ o, o ≠ op → g'.op o = g.op o

theorem placed_before (g : Funcdata) (op follow : OpId) :
    Placed g (g.opInsertBefore op follow) op := by
  obtain ⟨hvn, hnv, hno, hself, hother⟩ := opInsertBefore_spec g op follow
  exact ⟨hvn, hnv, hno, ⟨_, hself⟩, hother⟩

theorem placed_after (g : Funcdata) (op prev : OpId) : Placed g (g.opInsertAfter op prev) op := by
  obtain ⟨hvn, hnv, parent, hself, hother⟩ := opInsertAfter_spec g op prev
  exact ⟨hvn, hnv, (opInsertAfter_num g op prev).1, ⟨parent, hself⟩, hother⟩

theorem placed_begin (g : Funcdata) (op : OpId) (blk : BlockId) :
    Placed g (g.opInsertBegin op blk) op := by
  refine ⟨rfl, rfl, rfl, ⟨some blk, ?_⟩, fun o ho => ?_⟩
  · unfold opInsertBegin
    dsimp only
    rw [modBlock_op, modOp_op, if_pos rfl]
  · unfold opInsertBegin
    dsimp only
    rw [modBlock_op, modOp_op, if_neg ho]

theorem NewOp.placed {k : Funcdata} (h : NewOp g g' code ins w) (hp : Placed g' k g.numOps) :
    NewOp g k code ins w := by
  obtain ⟨parent, hself⟩ := hp.self
  have hk : Keeps g' k := Keeps.of_eq hp.vn hp.numVarnodes
  refine ⟨h.keeps.trans hk, hp.numOps.trans h.numOps, fun o ho => ?_, ?_, ?_, fun env => ?_, ?_⟩
  · rw [hp.other o ho, h.other o ho]
  · rw [hself]
    exact h.opcode
  · rw [hself]
    exact h.output
  · have hops : k.operandsOf env g.numOps = g'.operandsOf env g.numOps := by
      unfold operandsOf operandOf valueOf
      rw [hself, hp.vn]
    rw [hops]
    exact h.operands env
  · rw [hself]
    exact h.reads

/-- What the new op computes, seen from a later graph that leaves it alone. -/
theorem NewOp.result {k : Funcdata} (h : NewOp g g' code [a, b] w) (hw : w < g'.numVarnodes)
    (hlinked : g'.Linked) (hk : Keeps g' k) (hrec : k.op g.numOps = g'.op g.numOps)
    (hc : Computes g.numOps k env) :
    evalBinary code (g.vn a).size (g.vn b).size (g'.vn w).size (g.valueOf env a) (g.valueOf env b) =
      some (g'.valueOf env w) := by
  have hres := hc g.numOps le_rfl w (by rw [hrec]; exact h.output)
  have hops : k.operandsOf env g.numOps = g'.operandsOf env g.numOps := by
    unfold operandsOf
    rw [hrec]
    apply List.map_congr_left
    intro u hu
    exact hk.operandOf (hlinked.lt_of_mem_inrefs hu)
  unfold resultOf at hres
  rw [hrec, h.opcode, hops, h.operands env, hk.size w hw, hk.valueOf hw] at hres
  exact hres

/-! Pieces put together. -/

/-- The byte order of the range's space. -/
def byteOrder (f : Funcdata) (range : MemRange) : Bool := (f.spaces.get range.space).bigEndian

/-- The inputs of a PIECE of a stretch and the piece behind it. -/
def pieceInputs (be : Bool) (preexist vn : VarnodeId) : List VarnodeId :=
  if be then [preexist, vn] else [vn, preexist]

theorem mem_pieceInputs {be : Bool} {x preexist vn : VarnodeId} :
    x ∈ pieceInputs be preexist vn ↔ x = preexist ∨ x = vn := by
  unfold pieceInputs
  cases be with
  | false => simp [or_comm]
  | true => simp

theorem unshared_plain (h : ∀ v ∈ ins, (g.vn v).constant = false) : g.Unshared ins := by
  intro v hv hc
  rw [h v hv] at hc
  cases hc

/-- A stretch of pieces that are put together already. -/
structure Stretch (f g : Funcdata) (m : ℕ) (v : VarnodeId) : Prop where
  lt : v < g.numVarnodes
  fresh : f.numVarnodes ≤ v
  plain : (g.vn v).constant = false
  size : (g.vn v).size = m

variable {preexist vn fin : VarnodeId} {m : ℕ} {seq : SeqNum} {insertop : Option OpId}

/-- A new op of code PIECE goes before its reader, or first into block 0. -/
theorem exists_placed {k : Funcdata} (insertop : Option OpId) (hk : Frame f k vs)
    (hkn : NewOp g k code ins w) :
    ∃ k', (match insertop with
        | some op => k.opInsertBefore g.numOps op
        | none => k.opInsertBegin g.numOps 0) = k' ∧
      Frame f k' vs ∧ NewOp g k' code ins w ∧ Keeps k k' := by
  cases insertop with
  | none =>
    have hp := placed_begin k g.numOps 0
    exact ⟨_, rfl, hk.opInsertBegin g.numOps 0, hkn.placed hp, Keeps.of_eq hp.vn hp.numVarnodes⟩
  | some op =>
    have hp := placed_before k g.numOps op
    exact ⟨_, rfl, hk.opInsertBefore g.numOps op, hkn.placed hp, Keeps.of_eq hp.vn hp.numVarnodes⟩

theorem concatPiece_spec (h : Frame f g vs) (hpre : Stretch f g m preexist)
    (hvn : IsPiece g range i n vn) (hfresh : f.numVarnodes ≤ vn) (final : Option VarnodeId)
    (hfin : ∀ x, final = some x → Blank f g x ∧ x ≠ preexist ∧ x ≠ vn) :
    ∃ g' w, concatPiece seq insertop final g preexist vn = (g', w) ∧ Frame f g' vs ∧
      NewOp g g' .piece (pieceInputs (byteOrder f range) preexist vn) w ∧ w < g'.numVarnodes ∧
      (∀ x, final = some x → w = x) ∧
      (final = none → Stretch f g' (m + n) w ∧ g.numVarnodes ≤ w) := by
  have hins : (if (g.spaces.get (g.vn vn).loc.space).bigEndian then [preexist, vn]
      else [vn, preexist]) = pieceInputs (byteOrder f range) preexist vn := by
    unfold byteOrder pieceInputs
    rw [h.spaces, hvn.loc]
    rfl
  obtain ⟨a, b, hab⟩ : ∃ a b, pieceInputs (byteOrder f range) preexist vn = [a, b] := by
    unfold pieceInputs
    split_ifs
    · exact ⟨preexist, vn, rfl⟩
    · exact ⟨vn, preexist, rfl⟩
  have hmem (v : VarnodeId) (hv : v ∈ [a, b]) : v = preexist ∨ v = vn := by
    rw [← hab] at hv
    exact mem_pieceInputs.mp hv
  have hlt : ∀ v ∈ [a, b], v < g.numVarnodes := fun v hv =>
    (hmem v hv).elim (fun he => he ▸ hpre.lt) fun he => he ▸ hvn.lt
  have hnew : ∀ v ∈ [a, b], f.numVarnodes ≤ v ∨ v ∈ vs := fun v hv =>
    .inl ((hmem v hv).elim (fun he => he ▸ hpre.fresh) fun he => he ▸ hfresh)
  have hun : g.Unshared [a, b] := unshared_plain fun v hv =>
    (hmem v hv).elim (fun he => he ▸ hpre.plain) fun he => he ▸ hvn.plain
  rw [hab]
  unfold concatPiece
  dsimp only
  rw [hins, hab, hpre.size, hvn.size]
  cases final with
  | some x =>
    obtain ⟨hx, hxp, hxv⟩ := hfin x rfl
    have hxin : x ∉ [a, b] := fun hin => (hmem x hin).elim hxp hxv
    obtain ⟨hk, hkn⟩ := h.newOp_setOutput seq (.inl rfl) hlt hnew hun hx hxin
    -- the op goes to its place last
    obtain ⟨k', hk', hframe, hop, hkeeps⟩ := exists_placed insertop hk hkn
    refine ⟨k', x, Prod.ext hk' rfl, hframe, hop, hx.lt.trans_le hop.keeps.le,
      fun y hy => Option.some.inj hy, fun hnone => absurd hnone (Option.some_ne_none x)⟩
  | none =>
    obtain ⟨k, w, hkw, hk, hkn, hge, hwlt, hsize, hc⟩ :=
      h.newOp_newOutput seq (m + n) (.inl rfl) hlt hnew hun
    obtain ⟨k', hk', hframe, hop, hkeeps⟩ := exists_placed insertop hk hkn
    have hpair : (g.newOp .piece seq [a, b]).2 = g.numOps := rfl
    dsimp only
    rw [hpair, hkw]
    refine ⟨k', w, Prod.ext hk' rfl, hframe, hop, hwlt.trans_le hkeeps.le,
      (fun y hy => absurd hy.symm (Option.some_ne_none y)),
      fun _ => ⟨⟨hwlt.trans_le hkeeps.le, h.keeps.le.trans hge, ?_, ?_⟩, hge⟩⟩
    · rw [hkeeps.constant w hwlt, hc]
    · rw [hkeeps.size w hwlt, hsize]

/-- The bytes of a stretch with those of the piece behind it. -/
theorem piece_value {be : Bool} {mem : ℕ → BitVec 8} {so r : ℕ} (hsp : (g.vn preexist).size = m)
    (hsv : (g.vn vn).size = n) (hp : g.valueOf env preexist = readMem be mem i m)
    (hv : g.valueOf env vn = readMem be mem (i + m) n)
    (hab : pieceInputs be preexist vn = [a, b])
    (hr : evalBinary .piece (g.vn a).size (g.vn b).size so (g.valueOf env a) (g.valueOf env b) =
      some r) : r = readMem be mem i (m + n) := by
  rw [readMem_append]
  have hr : g.valueOf env a <<< (8 * (g.vn b).size) ||| g.valueOf env b = r := Option.some.inj hr
  rw [← hr]
  cases be with
  | false =>
    obtain ⟨rfl, hb⟩ := List.cons.inj hab
    obtain ⟨rfl, -⟩ := List.cons.inj hb
    rw [if_neg Bool.false_ne_true, hsp, hp, hv]
  | true =>
    obtain ⟨rfl, hb⟩ := List.cons.inj hab
    obtain ⟨rfl, -⟩ := List.cons.inj hb
    rw [if_pos rfl, hsv, hp, hv]

/-- Each piece has the bytes at its place. -/
def HoldAll (g : Funcdata) (be : Bool) (env : VarnodeId → ℕ) (mem : ℕ → BitVec 8) :
    ℕ → List ℕ → List VarnodeId → Prop :=
  Along fun i n v => g.valueOf env v = readMem be mem i n

theorem HoldAll.keeps {be : Bool} {mem : ℕ → BitVec 8} {l : List ℕ} {us : List VarnodeId}
    (h : HoldAll g be env mem i l us) (hk : Keeps g g') (hlt : ∀ u ∈ us, u < g.numVarnodes) :
    HoldAll g' be env mem i l us :=
  Along.imp h fun _ _ u hu hv => (hk.valueOf (hlt u hu)).trans hv

/-- The loop of `concat_pieces` leaves a concatenation with all the bytes. -/
theorem concatLoop_spec {rest : List VarnodeId} {l : List ℕ} (h : Frame f g vs)
    (hpre : Stretch f g m preexist) (hpieces : Along (IsPiece g range) (i + m) l rest)
    (hfresh : ∀ u ∈ rest, f.numVarnodes ≤ u) (hfin : Blank f g fin) (hne : fin ≠ preexist)
    (hnot : fin ∉ rest) (hrest : rest ≠ []) :
    ∃ g', concatLoop seq insertop fin g preexist rest = (g', fin) ∧ Frame f g' vs ∧ Keeps g g' ∧
      g.numOps ≤ g'.numOps ∧ (∀ o < g.numOps, g'.op o = g.op o) ∧
      ∀ env mem, Computes g.numOps g' env →
        g.valueOf env preexist = readMem (byteOrder f range) mem i m →
        HoldAll g (byteOrder f range) env mem (i + m) l rest →
        g.valueOf env fin = readMem (byteOrder f range) mem i (m + l.sum) := by
  induction rest generalizing g preexist m l with
  | nil => exact absurd rfl hrest
  | cons vn rest ih =>
    cases l with
    | nil => exact hpieces.elim
    | cons n l =>
      obtain ⟨hvn, hpieces⟩ := hpieces
      obtain ⟨hvnew, hfresh⟩ := List.forall_mem_cons.mp hfresh
      obtain ⟨hnvn, hnrest⟩ := not_or.mp (mt List.mem_cons.mpr hnot)
      obtain ⟨k, w, hkw, hk, hop, hwlt, hsome, hnone⟩ :=
        (@concatPiece_spec _ _ _ _ _ _ _ _ _ seq insertop) h hpre hvn hvnew (if rest = [] then some fin else none)
        fun x hx => by
          split_ifs at hx
          obtain rfl := Option.some.inj hx
          exact ⟨hfin, hne, hnvn⟩
      obtain ⟨a, b, hab⟩ : ∃ a b, pieceInputs (byteOrder f range) preexist vn = [a, b] := by
        unfold pieceInputs
        split_ifs
        · exact ⟨preexist, vn, rfl⟩
        · exact ⟨vn, preexist, rfl⟩
      rw [concatLoop]
      dsimp only
      rw [hkw]
      dsimp only
      -- what the PIECE has computed, seen from a later graph
      have hvalue (k' : Funcdata) (hkk : Keeps k k') (hrec : k'.op g.numOps = k.op g.numOps)
          (env : VarnodeId → ℕ) (mem : ℕ → BitVec 8) (hc : Computes g.numOps k' env)
          (hp : g.valueOf env preexist = readMem (byteOrder f range) mem i m)
          (hv : g.valueOf env vn = readMem (byteOrder f range) mem (i + m) n) :
          k.valueOf env w = readMem (byteOrder f range) mem i (m + n) := by
        rw [hab] at hop
        exact piece_value hpre.size hvn.size hp hv hab
          (hop.result hwlt hk.linked hkk hrec hc)
      have hlater (o : OpId) (ho : o < g.numOps) : k.op o = g.op o := hop.other o ho.ne
      have hnum : g.numOps < k.numOps := hop.numOps ▸ Nat.lt_succ_self _
      by_cases hlast : rest = []
      · subst hlast
        cases l with
        | cons n' l => exact hpieces.elim
        | nil =>
          obtain rfl := hsome fin (if_pos rfl)
          refine ⟨k, rfl, hk, hop.keeps, hnum.le, hlater, fun env mem hc hp hv => ?_⟩
          have hw := hvalue k (Keeps.refl k) rfl env mem hc hp hv.1
          rw [List.sum_singleton, ← hop.keeps.valueOf hfin.lt]
          exact hw
      · obtain ⟨hstretch, hwge⟩ := hnone (if_neg hlast)
        have hfink := hfin.newOp hop (hfin.lt.trans_le hwge).ne fun hin =>
          (mem_pieceInputs.mp hin).elim hne hnvn
        have hpk : Along (IsPiece k range) (i + (m + n)) l rest := by
          rw [← Nat.add_assoc]
          exact hpieces.imp fun _ _ _ _ hu => hu.keeps hop.keeps
        obtain ⟨g', hg', hframe, hkeeps, hle, hsame, hval⟩ := ih hk hstretch hpk hfresh hfink
          (hfin.lt.trans_le hwge).ne hnrest hlast
        refine ⟨g', hg', hframe, hop.keeps.trans hkeeps, hnum.le.trans hle, fun o ho => ?_,
          fun env mem hc hp hv => ?_⟩
        · rw [hsame o (ho.trans hnum), hlater o ho]
        · have hw := hvalue g' hkeeps (hsame g.numOps hnum) env mem hc hp hv.1
          have hrestlt (u : VarnodeId) (hu : u ∈ rest) : u < g.numVarnodes := by
            obtain ⟨_, _, hp⟩ := hpieces.of_mem u hu
            exact hp.lt
          have hvk : HoldAll k (byteOrder f range) env mem (i + (m + n)) l rest := by
            rw [← Nat.add_assoc]
            exact HoldAll.keeps hv.2 hop.keeps hrestlt
          have hall := hval env mem (hc.mono hnum.le) hw hvk
          rw [hop.keeps.valueOf hfin.lt] at hall
          rw [hall, List.sum_cons, Nat.add_assoc]

/-! Pieces cut out. -/

/-- The varnode `v` holds the `size` bytes of the range from `i` on; the pieces are cut from it. -/
structure Whole (f g : Funcdata) (vs : List VarnodeId) (size : ℕ) (v : VarnodeId) : Prop where
  lt : v < g.numVarnodes
  given : f.numVarnodes ≤ v ∨ v ∈ vs
  plain : (g.vn v).constant = false
  size : (g.vn v).size = size

theorem Whole.keeps {size : ℕ} (h : Whole f g vs size v) (hk : Keeps g g') :
    Whole f g' vs size v :=
  ⟨h.lt.trans_le hk.le, h.given, (hk.constant v h.lt).trans h.plain, (hk.size v h.lt).trans h.size⟩

/-- How far a piece is from the least significant byte, in the host's words. -/
theorem pieceOffset_toNat {size k : ℕ} {be : Bool} (hvn : IsPiece g range k n vn) (hik : i ≤ k)
    (hle : k + n ≤ i + size) (hsmall : i + size < 2 ^ 64) :
    (g.pieceOffset be (range.off + BitVec.ofNat 64 i) size vn).toNat =
      lessSignificant be size (k - i) n := by
  unfold pieceOffset lessSignificant
  rw [hvn.loc, hvn.size]
  unfold pieceAddr
  cases be with
  | false =>
    have hoff : range.off + BitVec.ofNat 64 k - (range.off + BitVec.ofNat 64 i) =
        BitVec.ofNat 64 (k - i) := by
      have hk : k = i + (k - i) := by omega
      conv_lhs => rw [hk, BitVec.ofNat_add]
      ring
    rw [if_neg Bool.false_ne_true, if_neg Bool.false_ne_true, hoff, BitVec.toNat_ofNat,
      Nat.mod_eq_of_lt (by omega)]
  | true =>
    have hoff : range.off + BitVec.ofNat 64 i + BitVec.ofNat 64 size -
        (range.off + BitVec.ofNat 64 k + BitVec.ofNat 64 n) =
          BitVec.ofNat 64 (size - (k - i) - n) := by
      have hsum : i + size = k + n + (size - (k - i) - n) := by omega
      have hwords := congrArg (BitVec.ofNat 64) hsum
      rw [BitVec.ofNat_add, BitVec.ofNat_add, BitVec.ofNat_add] at hwords
      have hassoc : range.off + BitVec.ofNat 64 i + BitVec.ofNat 64 size =
          range.off + (BitVec.ofNat 64 i + BitVec.ofNat 64 size) := add_assoc ..
      rw [hassoc, hwords]
      ring
    rw [if_pos rfl, if_pos rfl, hoff, BitVec.toNat_ofNat, Nat.mod_eq_of_lt (by omega)]

variable {size k : ℕ} {be : Bool} {start : VarnodeId} {prev : Option OpId}

/-- A turn of `split_pieces`: `g'` is `g` with a SUBPIECE that gives `vn` its bytes. -/
structure CutOut (f g g' : Funcdata) (vs : List VarnodeId) (range : MemRange) (be : Bool)
    (i size : ℕ) (start : VarnodeId) (k n : ℕ) (vn : VarnodeId) : Prop where
  frame : Frame f g' vs
  keeps : Keeps g g'
  numOps : g'.numOps = g.numOps + 1
  other : ∀ o < g.numOps, g'.op o = g.op o
  reads : ∀ u ∈ (g'.op g.numOps).inrefs, u = start ∨ g.numVarnodes ≤ u
  blank : ∀ u, Blank f g u → u ≠ vn → u ≠ start → Blank f g' u
  value : ∀ h, Keeps g' h → h.op g.numOps = g'.op g.numOps → ∀ env mem, Computes g.numOps h env →
    g.valueOf env start = readMem be mem i size → g.valueOf env vn = readMem be mem k n

/-- A new SUBPIECE goes after the one before it, or first into block 0. -/
theorem exists_placed_after {g0 k : Funcdata} (prev : Option OpId) (hnum : g0.numOps = g.numOps)
    (hk : Frame f k vs) (hkn : NewOp g0 k code ins w) :
    ∃ k', (match prev with
        | some op => k.opInsertAfter g.numOps op
        | none => k.opInsertBegin g.numOps 0) = k' ∧ Frame f k' vs ∧ NewOp g0 k' code ins w := by
  cases prev with
  | none =>
    exact ⟨_, rfl, hk.opInsertBegin g.numOps 0, hkn.placed (hnum ▸ placed_begin _ _ 0)⟩
  | some op =>
    exact ⟨_, rfl, hk.opInsertAfter g.numOps op, hkn.placed (hnum ▸ placed_after _ _ op)⟩

theorem splitPiece_spec (h : Frame f g vs) (hs : Whole f g vs size start)
    (hvn : IsPiece g range k n vn) (hb : Blank f g vn) (hne : vn ≠ start) (hn : 0 < n) (hik : i ≤ k)
    (hle : k + n ≤ i + size) (hsmall : i + size < 2 ^ 64) :
    ∃ g', splitPiece seq be (range.off + BitVec.ofNat 64 i) size start g prev vn = (g', g.numOps) ∧
      CutOut f g g' vs range be i size start k n vn := by
  have hoff := (@pieceOffset_toNat _ _ _ _ _ _ _ be) hvn hik hle hsmall
  unfold splitPiece
  generalize g.pieceOffset be (range.off + BitVec.ofNat 64 i) size vn = off at *
  -- the constant
  have hk0 := Keeps.newConst g 4 off
  have h0 : Frame f (g.newConst 4 off).1 vs := h.allocVarnode 4 _ true
  have hclt := newConst_lt g 4 off
  have hcop : ∀ env, (g.newConst 4 off).1.operandOf env (g.newConst 4 off).2 = (4, off.toNat) :=
    fun env => newConst_operandOf 4 off
  have hcvn := newConst_vn g 4 off
  have hcge : g.numVarnodes ≤ (g.newConst 4 off).2 := le_rfl
  have hb0 (u : VarnodeId) (hu : Blank f g u) : Blank f (g.newConst 4 off).1 u :=
    ⟨hu.lt.trans_le hk0.le, hu.fresh, (hk0.constant u hu.lt).trans hu.plain, hu.undefined,
      hu.unread⟩
  have hops0 : (g.newConst 4 off).1.op = g.op := rfl
  have hnum0 : (g.newConst 4 off).1.numOps = g.numOps := rfl
  dsimp only
  generalize hg0 : (g.newConst 4 off).1 = g0 at *
  generalize (g.newConst 4 off).2 = c at *
  have hpair : (g0.newOp .subpiece seq [start, c]).2 = g.numOps := hnum0
  have hmem {u : VarnodeId} (hu : u ∈ [start, c]) : u = start ∨ u = c := by simpa using hu
  have hlt : ∀ v ∈ [start, c], v < g0.numVarnodes := fun v hv =>
    (hmem hv).elim (fun he => he ▸ hs.lt.trans_le hk0.le) fun he => he ▸ hclt
  have hnew : ∀ v ∈ [start, c], f.numVarnodes ≤ v ∨ v ∈ vs := fun v hv =>
    (hmem hv).elim (fun he => he ▸ hs.given) fun he => .inl (he ▸ h.keeps.le.trans hcge)
  have hsc : start ≠ c := (hs.lt.trans_le hcge).ne
  have hun : g0.Unshared [start, c] := by
    intro v _ _ _ _
    rw [List.count_cons, List.count_singleton]
    split_ifs with h1 h2
    · exact absurd ((beq_iff_eq.mp h2).trans (beq_iff_eq.mp h1).symm) hsc
    all_goals omega
  have hvin : vn ∉ [start, c] := fun hin =>
    (hmem hin).elim hne fun he => absurd hvn.lt (not_lt.mpr (he ▸ hcge))
  obtain ⟨hk1, hop1⟩ := h0.newOp_setOutput seq (.inr rfl) hlt hnew hun (hb0 vn hb) hvin
  rw [hnum0] at hk1 hop1
  obtain ⟨g', hg', hframe, hop⟩ := exists_placed_after prev hnum0 hk1 hop1
  rw [hpair]
  refine ⟨g', Prod.ext hg' rfl, hframe, hk0.trans hop.keeps, ?_, fun o ho => ?_, fun u hu => ?_,
    fun u hu hune hus => ?_, fun h' hk' hrec env mem hc hval => ?_⟩
  · rw [hop.numOps, hnum0]
  · rw [hop.other o (hnum0 ▸ ho.ne), hops0]
  · rcases hop.reads u (hnum0.symm ▸ hu) with hin | hge
    · exact (hmem hin).imp id fun he : u = c => he ▸ hcge
    · exact .inr (hk0.le.trans hge)
  · refine (hb0 u hu).newOp hop hune fun hin => ?_
    exact (hmem hin).elim hus fun he => absurd hu.lt (not_lt.mpr (he ▸ hcge))
  · have hvlt : vn < g0.numVarnodes := hvn.lt.trans_le hk0.le
    have hres := hop.result (hvlt.trans_le hop.keeps.le) hframe.linked hk'
      (by rw [hnum0]; exact hrec)
      (show Computes g0.numOps h' env by rw [hnum0]; exact hc)
    have hcval : g0.valueOf env c = off.toNat := congrArg Prod.snd (hcop env)
    have hsval : g0.valueOf env start = readMem be mem i size := (hk0.valueOf hs.lt).trans hval
    have hvval : g'.valueOf env vn = g.valueOf env vn := (hk0.trans hop.keeps).valueOf hvn.lt
    have hssize : (g0.vn start).size = size := (hk0.size start hs.lt).trans hs.size
    have hvsize : (g'.vn vn).size = n := ((hk0.trans hop.keeps).size vn hvn.lt).trans hvn.size
    rw [hcval, hsval, hvval, hssize, hvsize, hoff] at hres
    have hcut : lessSignificant be size (k - i) n < size := by
      unfold lessSignificant
      split_ifs
      all_goals omega
    have hres : (if size ≤ lessSignificant be size (k - i) n then 0 else
        (readMem be mem i size >>> (8 * lessSignificant be size (k - i) n)) % 2 ^ (8 * n)) =
          g.valueOf env vn := Option.some.inj hres
    rw [if_neg (not_le.mpr hcut), readMem_slice be mem i (by omega)] at hres
    have hplace : i + (k - i) = k := by omega
    rw [← hres, hplace]

/-- `split_pieces` gives all pieces their bytes. -/
theorem splitPieces_fold {us : List VarnodeId} {l : List ℕ} (h : Frame f g vs)
    (hs : Whole f g vs size start) (hus : Along (IsPiece g range) k l us)
    (hb : ∀ u ∈ us, Blank f g u ∧ u ≠ start) (hnd : us.Nodup) (hpos : ∀ n ∈ l, 0 < n) (hik : i ≤ k)
    (hle : k + l.sum ≤ i + size) (hsmall : i + size < 2 ^ 64) :
    ∃ g' last, us.foldl (fun s vn =>
        let (g, newop) := splitPiece seq be (range.off + BitVec.ofNat 64 i) size start s.1 s.2 vn
        (g, some newop)) (g, prev) = (g', last) ∧
      Frame f g' vs ∧ Keeps g g' ∧ g.numOps ≤ g'.numOps ∧ (∀ o < g.numOps, g'.op o = g.op o) ∧
      (∀ o, g.numOps ≤ o → ∀ u ∈ (g'.op o).inrefs, u = start ∨ g.numVarnodes ≤ u) ∧
      ∀ env mem, Computes g.numOps g' env → g.valueOf env start = readMem be mem i size →
        HoldAll g be env mem k l us := by
  induction us generalizing g k l prev with
  | nil =>
    cases l with
    | nil =>
      refine ⟨g, prev, rfl, h, Keeps.refl g, le_rfl, fun _ _ => rfl, fun o ho u hu => ?_,
        fun _ _ _ _ => trivial⟩
      rw [(h.linked.blankOp o ho).1] at hu
      exact absurd hu List.not_mem_nil
    | cons n l => exact hus.elim
  | cons u us ih =>
    cases l with
    | nil => exact hus.elim
    | cons n l =>
      obtain ⟨hu, hus⟩ := hus
      obtain ⟨⟨hbu, hune⟩, hb⟩ := List.forall_mem_cons.mp hb
      obtain ⟨hnot, hnd⟩ := List.nodup_cons.mp hnd
      obtain ⟨hn, hpos⟩ := List.forall_mem_cons.mp hpos
      rw [List.sum_cons] at hle
      obtain ⟨g1, hg1, hcut⟩ := (@splitPiece_spec _ _ _ _ _ _ _ seq _ _ be _ prev) h hs hu hbu
        hune hn hik (by omega) hsmall
      have hus1 : Along (IsPiece g1 range) (k + n) l us := hus.imp fun _ _ _ _ hv =>
        hv.keeps hcut.keeps
      obtain ⟨g', last, hfold, hframe, hkeeps, hnum, hsame, hreads, hval⟩ := ih (g := g1)
        (k := k + n) hcut.frame (hs.keeps hcut.keeps) hus1
        (fun v hv => ⟨hcut.blank v (hb v hv).1 (fun he => hnot (he ▸ hv)) (hb v hv).2, (hb v hv).2⟩)
        hnd hpos (by omega) (by omega)
      have hlt : g.numOps < g1.numOps := hcut.numOps ▸ Nat.lt_succ_self _
      rw [List.foldl_cons]
      dsimp only at hfold ⊢
      rw [hg1]
      refine ⟨g', last, hfold, hframe, hcut.keeps.trans hkeeps, hlt.le.trans hnum, fun o ho => ?_,
        fun o ho v hv => ?_, fun env mem hc hs0 => ⟨?_, ?_⟩⟩
      · rw [hsame o (ho.trans hlt), hcut.other o ho]
      · rcases ho.eq_or_lt with rfl | hgt
        · rw [hsame g.numOps hlt] at hv
          exact hcut.reads v hv
        · have hge : g1.numOps ≤ o := hcut.numOps ▸ hgt
          exact (hreads o hge v hv).imp id hcut.keeps.le.trans
      · exact hcut.value g' hkeeps (hsame g.numOps hlt) env mem hc hs0
      · have hs1 : g1.valueOf env start = readMem be mem i size :=
          (hcut.keeps.valueOf hs.lt).trans hs0
        refine Along.imp (hval env mem (hc.mono hlt.le) hs1) fun _ _ v hv hhold => ?_
        obtain ⟨_, _, hp⟩ := hus.of_mem v hv
        rwa [hcut.keeps.valueOf hp.lt] at hhold

end Funcdata
end Mosura
