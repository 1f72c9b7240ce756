import Mosura.ListGraph
import Mosura.RefineSplit

/-! The refinement of a range keeps every byte of its accesses. -/

namespace Mosura
namespace Funcdata

open Lib Refine

variable {f g g' : Funcdata} {vs ws : List VarnodeId} {range : MemRange} {refine : List ℕ}
  {ps : List Part} {wordsize : SpaceId → ℕ} {v w : VarnodeId} {l : List ℕ} {us : List VarnodeId}
  {op d : OpId} {env : VarnodeId → ℕ} {mem : ℕ → BitVec 8}

/-! What an access becomes. -/

/-- The varnodes `us` take the place of `v` in `g`: consecutive, each for a piece of the range or
for one part of a joined piece. The whole of them is `w`. -/
structure Pieces (f g : Funcdata) (range : MemRange) (ps : List Part) (v w : VarnodeId)
    (l : List ℕ) (us : List VarnodeId) : Prop where
  whole : w = v ∨ f.numVarnodes ≤ w
  lt : w < g.numVarnodes
  size : (g.vn w).size = (f.vn v).size
  sum : l.sum = (f.vn v).size
  within : Within ps (distance f range.off v) l
  tiles : Along (IsPiece g range) (distance f range.off v) l us

/-- `w` has the bytes at the place of `v`. -/
def HoldsWhole (f g : Funcdata) (range : MemRange) (env : VarnodeId → ℕ) (mem : ℕ → BitVec 8)
    (v w : VarnodeId) : Prop :=
  g.valueOf env w = readMem (byteOrder f range) mem (distance f range.off v) (f.vn v).size

/-- The pieces `us` have the bytes at their places. -/
def HoldsPieces (f g : Funcdata) (range : MemRange) (env : VarnodeId → ℕ) (mem : ℕ → BitVec 8)
    (v : VarnodeId) (l : List ℕ) (us : List VarnodeId) : Prop :=
  HoldAll g (byteOrder f range) env mem (distance f range.off v) l us

/-- A read of `v` gets the bytes that the pieces have. -/
def ReadKept (f g : Funcdata) (range : MemRange) (ps : List Part) (v : VarnodeId) : Prop :=
  ∀ op slot, (f.op op).input slot = some v → ∃ w l us, (g.op op).input slot = some w ∧
    Pieces f g range ps v w l us ∧
    ∀ env mem, Computes f.numOps g env → HoldsPieces f g range env mem v l us →
      HoldsWhole f g range env mem v w

/-- What is written to `v` is written to a whole: all that read `v` read it, and the pieces get its
bytes. -/
def WriteKept (f g : Funcdata) (range : MemRange) (ps : List Part) (v : VarnodeId) : Prop :=
  ∀ d, (f.op d).output = some v → ∃ w l us, (g.op d).output = some w ∧
    (∀ op slot, (f.op op).input slot = some v → (g.op op).input slot = some w) ∧
    Pieces f g range ps v w l us ∧
    ∀ env mem, Computes f.numOps g env → HoldsWhole f g range env mem v w →
      HoldsPieces f g range env mem v l us

/-- The pieces get the bytes of the input `v`, which is read where it was. -/
def InputKept (f g : Funcdata) (range : MemRange) (ps : List Part) (v : VarnodeId) : Prop :=
  ∃ l us, (∀ op slot, (f.op op).input slot = some v → (g.op op).input slot = some v) ∧
    Pieces f g range ps v v l us ∧
    ∀ env mem, Computes f.numOps g env → HoldsWhole f g range env mem v v →
      HoldsPieces f g range env mem v l us

/-! Other splittings before and after. -/

theorem Pieces.later (h : Pieces f g range ps v w l us) (hk : Keeps g g') :
    Pieces f g' range ps v w l us :=
  ⟨h.whole, h.lt.trans_le hk.le, (hk.size w h.lt).trans h.size, h.sum, h.within,
    h.tiles.imp fun _ _ _ _ hu => hu.keeps hk⟩

theorem Pieces.tile_lt (h : Pieces f g range ps v w l us) : ∀ u ∈ us, u < g.numVarnodes := by
  intro u hu
  obtain ⟨_, _, hp⟩ := h.tiles.of_mem u hu
  exact hp.lt

theorem HoldsWhole.later_iff (hk : Keeps g g') (hw : w < g.numVarnodes) :
    HoldsWhole f g' range env mem v w ↔ HoldsWhole f g range env mem v w := by
  unfold HoldsWhole
  rw [hk.valueOf hw]

theorem HoldsPieces.later_iff (hk : Keeps g g') (hlt : ∀ u ∈ us, u < g.numVarnodes) :
    HoldsPieces f g' range env mem v l us ↔ HoldsPieces f g range env mem v l us := by
  constructor
  · intro h
    exact Along.imp h fun _ _ u hu hv => (hk.valueOf (hlt u hu)).symm.trans hv
  · intro h
    exact HoldAll.keeps h hk hlt

/-- The whole of an access is none of the varnodes that are split later. -/
theorem Pieces.notMem (h : Pieces f g range ps v w l us)
    (hws : ∀ u ∈ ws, u < f.numVarnodes ∧ u ∉ vs) (hv : v ∈ vs) : w ∉ ws := by
  intro hin
  obtain ⟨hlt, hnot⟩ := hws w hin
  rcases h.whole with rfl | hge
  · exact hnot hv
  · exact absurd hlt (not_lt.mpr hge)

section Later

variable (hf : Frame f g vs) (hg : Frame g g' ws) (hws : ∀ u ∈ ws, u < f.numVarnodes ∧ u ∉ vs)
include hf hg hws

theorem ReadKept.later (hv : v ∈ vs) (h : ReadKept f g range ps v) : ReadKept f g' range ps v := by
  intro op slot hin
  obtain ⟨w, l, us, hw, hp, hval⟩ := h op slot hin
  refine ⟨w, l, us, hg.input op slot w (hp.notMem hws hv) hw, hp.later hg.keeps,
    fun env mem hc hpieces => ?_⟩
  rw [HoldsWhole.later_iff hg.keeps hp.lt]
  rw [HoldsPieces.later_iff hg.keeps hp.tile_lt] at hpieces
  exact hval env mem (hf.computes hg hws hc) hpieces

theorem WriteKept.later (hv : v ∈ vs) (h : WriteKept f g range ps v) :
    WriteKept f g' range ps v := by
  intro d hd
  obtain ⟨w, l, us, hw, hreads, hp, hval⟩ := h d hd
  have hnot := hp.notMem hws hv
  refine ⟨w, l, us, hg.output d w hnot hw,
    fun op slot hin => hg.input op slot w hnot (hreads op slot hin), hp.later hg.keeps,
    fun env mem hc hwhole => ?_⟩
  rw [HoldsPieces.later_iff hg.keeps hp.tile_lt]
  rw [HoldsWhole.later_iff hg.keeps hp.lt] at hwhole
  exact hval env mem (hf.computes hg hws hc) hwhole

theorem InputKept.later (hv : v ∈ vs) (h : InputKept f g range ps v) :
    InputKept f g' range ps v := by
  obtain ⟨l, us, hreads, hp, hval⟩ := h
  refine ⟨l, us, fun op slot hin => hg.input op slot v (hp.notMem hws hv) (hreads op slot hin),
    hp.later hg.keeps, fun env mem hc hwhole => ?_⟩
  rw [HoldsPieces.later_iff hg.keeps hp.tile_lt]
  rw [HoldsWhole.later_iff hg.keeps hp.lt] at hwhole
  exact hval env mem (hf.computes hg hws hc) hwhole

end Later

section Earlier

variable (hf : Frame f g vs) (hv : v ∉ vs) (hlt : v < f.numVarnodes)
include hf hlt

theorem Frame.distance_eq (off : U64) : distance g off v = distance f off v := by
  unfold distance
  rw [hf.keeps.loc v hlt]

theorem Pieces.earlier (h : Pieces g g' range ps v w l us) : Pieces f g' range ps v w l us where
  whole := h.whole.imp id hf.keeps.le.trans
  lt := h.lt
  size := h.size.trans (hf.keeps.size v hlt)
  sum := h.sum.trans (hf.keeps.size v hlt)
  within := hf.distance_eq hlt range.off ▸ h.within
  tiles := hf.distance_eq hlt range.off ▸ h.tiles

theorem HoldsWhole.earlier_iff :
    HoldsWhole g g' range env mem v w ↔ HoldsWhole f g' range env mem v w := by
  unfold HoldsWhole byteOrder
  rw [hf.distance_eq hlt, hf.keeps.size v hlt, hf.spaces]

theorem HoldsPieces.earlier_iff :
    HoldsPieces g g' range env mem v l us ↔ HoldsPieces f g' range env mem v l us := by
  unfold HoldsPieces byteOrder
  rw [hf.distance_eq hlt, hf.spaces]

include hv

theorem ReadKept.earlier (h : ReadKept g g' range ps v) : ReadKept f g' range ps v := by
  intro op slot hin
  obtain ⟨w, l, us, hw, hp, hval⟩ := h op slot (hf.input op slot v hv hin)
  refine ⟨w, l, us, hw, hp.earlier hf hlt, fun env mem hc hpieces => ?_⟩
  rw [← HoldsWhole.earlier_iff hf hlt]
  exact hval env mem (hc.mono hf.numOps) ((HoldsPieces.earlier_iff hf hlt).mpr hpieces)

theorem WriteKept.earlier (h : WriteKept g g' range ps v) : WriteKept f g' range ps v := by
  intro d hd
  obtain ⟨w, l, us, hw, hreads, hp, hval⟩ := h d (hf.output d v hv hd)
  refine ⟨w, l, us, hw, fun op slot hin => hreads op slot (hf.input op slot v hv hin),
    hp.earlier hf hlt, fun env mem hc hwhole => ?_⟩
  rw [← HoldsPieces.earlier_iff hf hlt]
  exact hval env mem (hc.mono hf.numOps) ((HoldsWhole.earlier_iff hf hlt).mpr hwhole)

theorem InputKept.earlier (h : InputKept g g' range ps v) : InputKept f g' range ps v := by
  obtain ⟨l, us, hreads, hp, hval⟩ := h
  refine ⟨l, us, fun op slot hin => hreads op slot (hf.input op slot v hv hin),
    hp.earlier hf hlt, fun env mem hc hwhole => ?_⟩
  rw [← HoldsPieces.earlier_iff hf hlt]
  exact hval env mem (hc.mono hf.numOps) ((HoldsWhole.earlier_iff hf hlt).mpr hwhole)

end Earlier

/-! The splitting of one access. -/

/-- `v` is an access inside the range that the array has between its cuts. -/
structure AccessOf (f : Funcdata) (range : MemRange) (refine : List ℕ) (ps : List Part)
    (v : VarnodeId) : Prop where
  lt : v < f.numVarnodes
  space : (f.vn v).loc.space = range.space
  pos : 0 < (f.vn v).size
  plain : (f.vn v).constant = false
  leads : ∃ l, Leads refine (distance f range.off v) l ∧ (f.vn v).size ≤ l.sum ∧
    Within ps (distance f range.off v) (chop l (f.vn v).size)

theorem leads_pos {a l : List ℕ} {i : ℕ} (h : Leads a i l) : ∀ n ∈ l, 0 < n := by
  induction l generalizing i with
  | nil => exact fun _ hn => absurd hn List.not_mem_nil
  | cons n l ih => exact List.forall_mem_cons.mpr ⟨h.2.1, ih h.2.2⟩

/-- An access that is in one piece stays as it is. -/
theorem AccessOf.unsplit (hin : AccessOf f range refine ps v)
    (hwithin : Within ps (distance f range.off v) [(f.vn v).size]) :
    Pieces f f range ps v v [(f.vn v).size] [v] := by
  refine ⟨.inl rfl, hin.lt, rfl, List.sum_singleton, hwithin,
    ⟨⟨hin.lt, ?_, rfl, hin.plain⟩, trivial⟩⟩
  exact loc_eq hin.space

theorem holds_unsplit : HoldsPieces f f range env mem v [(f.vn v).size] [v] ↔
    HoldsWhole f f range env mem v v := and_iff_left trivial

/-- What the new ops of `g` have computed, they have in a graph with the same ops. -/
theorem computes_of_ops {n : ℕ} (hl : g.Linked) (hk : Keeps g g')
    (hop : ∀ o, n ≤ o → (g'.op o).opcode = (g.op o).opcode ∧ (g'.op o).inrefs = (g.op o).inrefs ∧
      (g'.op o).output = (g.op o).output)
    (hc : Computes n g' env) : Computes n g env := by
  intro o ho out hout
  obtain ⟨hcode, hins, houtput⟩ := hop o ho
  have hres := hc o ho out (houtput.trans hout)
  have hlt := hl.output_lt hout
  have hops : g'.operandsOf env o = g.operandsOf env o := by
    unfold operandsOf
    rw [hins]
    apply List.map_congr_left
    intro u hu
    exact hk.operandOf (hl.lt_of_mem_inrefs hu)
  unfold resultOf at hres ⊢
  rwa [hcode, hops, hk.size out hlt, hk.valueOf hlt] at hres

/-- The graph with the pieces of `v` and, for a read or a write, a temporary for the whole. -/
structure Prepared (f g : Funcdata) (range : MemRange) (v : VarnodeId) (l : List ℕ)
    (us : List VarnodeId) : Prop where
  frame : Frame f g []
  laid : Laid f g us.length
  ids : us = List.range' f.numVarnodes us.length
  length : us.length = l.length
  tiles : Along (IsPiece g range) (distance f range.off v) l us

theorem prepared (hl : f.Linked) (range : MemRange) (v : VarnodeId) (l : List ℕ) :
    Prepared f (layPieces range f (distance f range.off v) l) range v l
      (List.range' f.numVarnodes l.length) := by
  obtain ⟨hlaid, htiles⟩ := layPieces_spec range l f (distance f range.off v)
  have hlen : (List.range' f.numVarnodes l.length).length = l.length := List.length_range'
  refine ⟨(Frame.refl hl).layPieces range _ l, ?_, ?_, hlen, htiles⟩
  · rw [hlen]
    exact hlaid
  · rw [hlen]

namespace Prepared

variable (h : Prepared f g range v l us)
include h

theorem fresh : ∀ u ∈ us, f.numVarnodes ≤ u := by
  intro u hu
  rw [h.ids, List.mem_range'_1] at hu
  exact hu.1

theorem nodup : us.Nodup := by
  rw [h.ids]
  exact List.nodup_range'

theorem tile_lt : ∀ u ∈ us, u < g.numVarnodes := by
  intro u hu
  obtain ⟨_, _, hp⟩ := h.tiles.of_mem u hu
  exact hp.lt

theorem blank : ∀ u ∈ us, Blank f g u := by
  intro u hu
  obtain ⟨_, _, hp⟩ := h.tiles.of_mem u hu
  have hge := h.fresh u hu
  have hl := h.frame.linked0
  refine ⟨hp.lt, hge, hp.plain, fun o ho => ?_, fun o _ hmem => ?_⟩
  · rw [h.laid.op] at ho
    exact absurd (hl.output_lt ho) (not_lt.mpr hge)
  · rw [h.laid.op] at hmem
    exact absurd (hl.lt_of_mem_inrefs hmem) (not_lt.mpr hge)

end Prepared

/-- A new temporary is blank, and all blank varnodes stay so. -/
theorem newUnique_blank (h : Frame f g vs) (size : ℕ) :
    Blank f (g.newUnique size).1 g.numVarnodes ∧
      (((g.newUnique size).1.vn g.numVarnodes).size = size) ∧
      ∀ u, Blank f g u → Blank f (g.newUnique size).1 u := by
  have hk : Keeps g (g.newUnique size).1 :=
    (Keeps.allocVarnode g size _ false).trans (Keeps.of_eq rfl rfl)
  have hvn : (g.newUnique size).1.vn g.numVarnodes =
      g.freshVarnode size ⟨g.spaces.unique, g.uniqueOffset⟩ false := by
    change (g.allocVarnode _ _ _).vn _ = _
    rw [allocVarnode_vn, if_pos rfl]
  refine ⟨⟨Nat.lt_succ_self _, h.keeps.le, ?_, fun o ho => ?_, fun o _ hmem => ?_⟩, ?_,
    fun u hu => ⟨hu.lt.trans_le hk.le, hu.fresh, (hk.constant u hu.lt).trans hu.plain, hu.undefined,
      hu.unread⟩⟩
  · rw [hvn]
    rfl
  · exact absurd (h.linked.output_lt ho) (lt_irrefl _)
  · exact absurd (h.linked.lt_of_mem_inrefs hmem) (lt_irrefl _)
  · rw [hvn]
    rfl

theorem unique_slot {l : List VarnodeId} {i j : ℕ} (hc : l.count v = 1) (hi : l[i]? = some v)
    (hj : l[j]? = some v) : i = j := by
  by_contra hne
  have htwo : ∀ (l : List VarnodeId) (i j : ℕ), i < j → l[i]? = some v → l[j]? = some v →
      2 ≤ l.count v := by
    intro l
    induction l with
    | nil => exact fun _ _ _ hi => nomatch hi
    | cons x l ih =>
      intro i j hij hi hj
      obtain ⟨j, rfl⟩ := Nat.exists_eq_succ_of_ne_zero (Nat.ne_zero_of_lt hij)
      have hj : l[j]? = some v := hj
      cases i with
      | zero =>
        obtain rfl := Option.some.inj hi
        have hpos := List.count_pos_iff.mpr (List.mem_of_getElem? hj)
        rw [List.count_cons_self]
        omega
      | succ i =>
        exact (ih i j (Nat.lt_of_succ_lt_succ hij) hi hj).trans (List.count_le_count_cons ..)
  rcases Nat.lt_or_gt_of_ne hne with hlt | hlt
  · have hle := htwo l i j hlt hi hj
    omega
  · have hle := htwo l j i hlt hj hi
    omega

/-- `refine_read` of a free varnode with one reader. -/
theorem refineRead_spec (hl : f.Linked) (hin : AccessOf f range refine ps v)
    (hspace : InSpace f wordsize range refine.length) (hdef : (f.vn v).defOp = none)
    (hdesc : (f.vn v).descend = [op]) :
    ∃ g, f.refineRead wordsize v range.off refine = some g ∧ Frame f g [v] ∧
      ReadKept f g range ps v := by
  obtain ⟨l0, hleads, hsum, hwithin⟩ := hin.leads
  have hlsum := sum_chop hsum
  unfold refineRead
  rcases splitVarnodeByRefinement_eq hin.space hin.pos hleads hsum hspace with
    ⟨hone, hsplit⟩ | ⟨htwo, hsplit⟩
  · rw [hone] at hwithin
    refine ⟨f, by rw [hsplit]; rfl, (Frame.refl hl).mono fun _ hv => absurd hv List.not_mem_nil,
      fun op slot hslot => ⟨v, _, _, hslot, hin.unsplit hwithin, fun env mem _ hp => ?_⟩⟩
    exact holds_unsplit.mp hp
  have hprep := prepared hl range v (chop l0 (f.vn v).size)
  rw [hsplit]
  generalize chop l0 (f.vn v).size = l at *
  generalize List.range' f.numVarnodes l.length = us at *
  generalize layPieces range f (distance f range.off v) l = f1 at *
  obtain ⟨first, rest, rfl⟩ := List.exists_cons_of_length_pos (l := us) (by
    rw [hprep.length]
    omega)
  have hrest : rest ≠ [] := by
    rintro rfl
    have hone := hprep.length
    rw [List.length_singleton] at hone
    omega
  cases l with
  | nil => exact hprep.tiles.elim
  | cons m l =>
  have hf1 := hprep.frame
  have hv1 : f1.vn v = f.vn v := hprep.laid.vn v hin.lt
  have hop1 : f1.op = f.op := hprep.laid.op
  -- the temporary
  obtain ⟨hblank, hsize, hothers⟩ := newUnique_blank hf1 (f1.vn v).size
  have hf2 := hf1.newUnique (f1.vn v).size
  have hk2 : Keeps f1 (f1.newUnique (f1.vn v).size).1 :=
    (Keeps.allocVarnode f1 _ _ false).trans (Keeps.of_eq rfl rfl)
  have hv2 : (f1.newUnique (f1.vn v).size).1.vn v = f.vn v := by
    rw [← hv1]
    refine (allocVarnode_vn ..).trans (if_neg ?_)
    exact (hin.lt.trans_le hf1.keeps.le).ne
  have hop2 : (f1.newUnique (f1.vn v).size).1.op = f.op := hop1
  have hnum2 : (f1.newUnique (f1.vn v).size).1.numOps = f.numOps := hprep.laid.numOps
  have hid : (f1.newUnique (f1.vn v).size).2 = f1.numVarnodes := rfl
  simp only [Option.bind_eq_bind, Option.bind_some, List.isEmpty_cons, Bool.false_eq_true, if_false]
  rw [hid]
  generalize (f1.newUnique (f1.vn v).size).1 = f2 at *
  have hmem : v ∈ (f.op op).inrefs := hl.mem_descend.mp (hdesc ▸ List.mem_singleton_self op)
  have hoplt : op < f.numOps := hl.lt_of_mem_descend (v := v) (hdesc ▸ List.mem_singleton_self op)
  have hsome : ((f.op op).inrefs.idxOf? v).isSome := List.isSome_idxOf?.mpr hmem
  obtain ⟨slot, hslot⟩ := Option.isSome_iff_exists.mp hsome
  obtain ⟨hslotlt, hslotv, -⟩ := List.idxOf?_eq_some_iff.mp hslot
  have hat : (f.op op).input slot = some v := List.getElem?_eq_some_iff.mpr ⟨hslotlt, hslotv⟩
  have hhead : (f2.vn v).descend.head? = some op := by
    rw [hv2, hdesc]
    rfl
  -- the concatenation
  obtain ⟨hfirst, htiles⟩ := hprep.tiles
  have hstretch : Stretch f f2 m first :=
    ⟨hfirst.lt.trans_le hk2.le, hprep.fresh first List.mem_cons_self,
      (hk2.constant first hfirst.lt).trans hfirst.plain,
      (hk2.size first hfirst.lt).trans hfirst.size⟩
  have hfin (u : VarnodeId) (hu : u ∈ first :: rest) : f1.numVarnodes ≠ u :=
    (hprep.tile_lt u hu).ne'
  obtain ⟨f3, hf3, hframe3, hk3, hnum3, hsame3, hval⟩ := concatLoop_spec
    hf2 hstretch
    (htiles.imp fun _ _ _ _ hu => hu.keeps hk2)
    (fun u hu => hprep.fresh u (List.mem_cons_of_mem first hu)) hblank
    (hfin first List.mem_cons_self)
    (fun hin => hfin _ (List.mem_cons_of_mem first hin) rfl) hrest
  have hconcat : f2.concatPieces (first :: rest) (some op) f1.numVarnodes =
      some (f3, f1.numVarnodes) := by
    unfold concatPieces
    dsimp only
    rw [hf3]
  simp only [hhead, hop2, hslot, hconcat, Option.bind_some]
  -- the reader
  have hrec3 : f3.op op = f.op op := by rw [hsame3 op (hnum2 ▸ hoplt), hop2]
  have hlt3 : f1.numVarnodes < f3.numVarnodes := hblank.lt.trans_le hk3.le
  have hc3 : (f3.vn f1.numVarnodes).constant = false :=
    (hk3.constant _ hblank.lt).trans hblank.plain
  have hframe3 : Frame f f3 [v] := hframe3.mono fun _ hu => absurd hu List.not_mem_nil
  have hset := (@opSetInput_op f3 op slot) (by rw [hrec3]; exact hslotlt) hlt3 hc3
  have hk4 := Keeps.opSetInput f3 op slot f1.numVarnodes
  have hframe4 := hframe3.opSetInput hoplt (by rw [hrec3]; exact hat) (List.mem_singleton_self v)
    hf1.keeps.le hlt3 hc3
  have hv3 := hf2.keeps.trans hk3
  generalize f3.opSetInput op slot f1.numVarnodes = f4 at *
  have hundef : ∀ o, (f4.op o).output ≠ some v := by
    intro o ho
    have hd := (hl.defs v o).mpr (hframe4.outputs o v hin.lt ho)
    rw [hdef] at hd
    cases hd
  -- the graph, with or without the varnode
  obtain ⟨g, hg, hframe, hkg, hopg⟩ : ∃ g,
      (if (f4.vn v).descend.isEmpty then f4.deleteVarnode v else f4) = g ∧ Frame f g [v] ∧
        Keeps f4 g ∧ g.op = f4.op := by
    split_ifs
    · exact ⟨_, rfl, hframe4.deleteVarnode (hframe4.linked.defOp_none hundef),
        Keeps.modVn f4 v _ rfl rfl rfl rfl, rfl⟩
    · exact ⟨_, rfl, hframe4, Keeps.refl f4, rfl⟩
  refine ⟨g, congrArg some hg, hframe, fun op' slot' hslot' => ?_⟩
  have hop' : op' = op := by
    have hd := hl.mem_descend.mpr (List.mem_of_getElem? hslot')
    rw [hdesc] at hd
    exact List.mem_singleton.mp hd
  subst hop'
  have hcount : (f.op op').inrefs.count v = 1 := by
    rw [← hl.count, hdesc]
    exact List.count_singleton_self
  obtain rfl := unique_slot hcount hat hslot'
  have hk := hk3.trans (hk4.trans hkg)
  refine ⟨f1.numVarnodes, m :: l, first :: rest, ?_, ⟨.inr hf1.keeps.le, hlt3.trans_le
    (hk4.trans hkg).le, ?_, hlsum, hwithin,
    hprep.tiles.imp fun _ _ _ _ hu => hu.keeps (hk2.trans hk)⟩,
    fun env mem hc hpieces => ?_⟩
  · rw [hopg, hset, if_pos rfl]
    exact List.getElem?_set_self (by rw [hrec3]; exact hslotlt)
  · rw [hk.size _ hblank.lt, hsize, hv1]
  · -- seen from the graph with the concatenation
    have hc3 : Computes f2.numOps f3 env := by
      rw [hnum2]
      refine computes_of_ops hframe3.linked (hk4.trans hkg) (fun o ho => ?_) hc
      rw [hopg, hset, if_neg (hoplt.trans_le ho).ne']
      exact ⟨rfl, rfl, rfl⟩
    have hp2 : HoldsPieces f f2 range env mem v (m :: l) (first :: rest) :=
      (HoldsPieces.later_iff hk fun u hu => (hprep.tile_lt u hu).trans_le hk2.le).mp hpieces
    have hwhole := hval env mem hc3 hp2.1 hp2.2
    rw [HoldsWhole.later_iff hk hblank.lt]
    unfold HoldsWhole
    rw [hwhole, ← hlsum, List.sum_cons]

/-- `split_pieces` of a whole at the place of `v`. -/
theorem splitPieces_spec (h : Frame f g vs) (hin : AccessOf f range refine ps v) {start : VarnodeId}
    (hs : Whole f g vs (f.vn v).size start)
    (hus : Along (IsPiece g range) (distance f range.off v) l us)
    (hb : ∀ u ∈ us, Blank f g u ∧ u ≠ start) (hnd : us.Nodup) (hne : us ≠ [])
    (hpos : ∀ n ∈ l, 0 < n)
    (hsum : l.sum = (f.vn v).size) (hsmall : distance f range.off v + (f.vn v).size < 2 ^ 64)
    (insertop : Option OpId) :
    ∃ g', g.splitPieces us insertop (f.vn v).loc.offset (f.vn v).size start = g' ∧ Frame f g' vs ∧
      Keeps g g' ∧ g.numOps ≤ g'.numOps ∧ (∀ o < g.numOps, g'.op o = g.op o) ∧
      (∀ o, g.numOps ≤ o → ∀ u ∈ (g'.op o).inrefs, u = start ∨ g.numVarnodes ≤ u) ∧
      ∀ env mem, Computes g.numOps g' env → HoldsWhole f g range env mem v start →
        HoldsPieces f g range env mem v l us := by
  have hbe : (us.head?.elim false fun u => (g.spaces.get (g.vn u).loc.space).bigEndian) =
      byteOrder f range := by
    obtain ⟨u, us, rfl⟩ := List.exists_cons_of_ne_nil hne
    obtain ⟨_, _, hp⟩ := hus.of_mem u List.mem_cons_self
    change (g.spaces.get (g.vn u).loc.space).bigEndian = _
    unfold byteOrder
    rw [hp.loc, h.spaces]
    rfl
  have hoff : (f.vn v).loc.offset = range.off + BitVec.ofNat 64 (distance f range.off v) :=
    congrArg Address.offset (loc_eq (f := f) hin.space)
  obtain ⟨g', last, hfold, hframe, hkeeps, hnum, hsame, hreads, hval⟩ := splitPieces_fold
    h hs hus hb hnd hpos
    le_rfl (by rw [hsum]) hsmall
  refine ⟨g', ?_, hframe, hkeeps, hnum, hsame, hreads, hval⟩
  unfold splitPieces
  dsimp only
  rw [hbe, hoff, hfold]

/-- `refine_write` of a varnode with a definition. -/
theorem refineWrite_spec (hl : f.Linked) (hin : AccessOf f range refine ps v)
    (hspace : InSpace f wordsize range refine.length)
    (hsmall : distance f range.off v + (f.vn v).size < 2 ^ 64) (hdef : (f.vn v).defOp = some d) :
    ∃ g, f.refineWrite wordsize v range.off refine = some g ∧ Frame f g [v] ∧
      WriteKept f g range ps v := by
  obtain ⟨l0, hleads, hsum, hwithin⟩ := hin.leads
  have hlsum := sum_chop hsum
  have hlpos := chop_pos (n := (f.vn v).size) (leads_pos hleads)
  have hdout : (f.op d).output = some v := (hl.defs v d).mp hdef
  unfold refineWrite
  rcases splitVarnodeByRefinement_eq hin.space hin.pos hleads hsum hspace with
    ⟨hone, hsplit⟩ | ⟨htwo, hsplit⟩
  · rw [hone] at hwithin
    refine ⟨f, by rw [hsplit]; rfl, (Frame.refl hl).mono fun _ hv => absurd hv List.not_mem_nil,
      fun d' hd' => ⟨v, _, _, hd', fun _ _ hslot => hslot, hin.unsplit hwithin,
        fun env mem _ hw => holds_unsplit.mpr hw⟩⟩
  have hprep := prepared hl range v (chop l0 (f.vn v).size)
  rw [hsplit]
  generalize chop l0 (f.vn v).size = l at *
  generalize List.range' f.numVarnodes l.length = us at *
  generalize layPieces range f (distance f range.off v) l = f1 at *
  have hne : us ≠ [] := by
    rintro rfl
    have hlen := hprep.length
    rw [List.length_nil] at hlen
    omega
  have hempty : us.isEmpty = false := List.isEmpty_eq_false_iff.mpr hne
  have hf1 := hprep.frame
  have hv1 : f1.vn v = f.vn v := hprep.laid.vn v hin.lt
  -- the temporary
  obtain ⟨hblank, hsize, hothers⟩ := newUnique_blank hf1 (f1.vn v).size
  have hf2 := hf1.newUnique (f1.vn v).size
  have hk2 : Keeps f1 (f1.newUnique (f1.vn v).size).1 :=
    (Keeps.allocVarnode f1 _ _ false).trans (Keeps.of_eq rfl rfl)
  have hv2 : (f1.newUnique (f1.vn v).size).1.vn v = f.vn v := by
    rw [← hv1]
    refine (allocVarnode_vn ..).trans (if_neg ?_)
    exact (hin.lt.trans_le hf1.keeps.le).ne
  have hop2 : (f1.newUnique (f1.vn v).size).1.op = f.op := hprep.laid.op
  have hnum2 : (f1.newUnique (f1.vn v).size).1.numOps = f.numOps := hprep.laid.numOps
  have hid : (f1.newUnique (f1.vn v).size).2 = f1.numVarnodes := rfl
  simp only [Option.bind_eq_bind, Option.bind_some, hempty, Bool.false_eq_true, if_false]
  rw [hid, hv1] at *
  generalize (f1.newUnique (f.vn v).size).1 = f2 at *
  have hvlt : v < f1.numVarnodes := hin.lt.trans_le hf1.keeps.le
  simp only [hv2, hdef, Option.bind_some]
  -- the definition writes it
  have hdlt : d < f.numOps := hl.lt_of_output hdout
  have hnone2 := hf2.linked.defOp_none hblank.undefined
  have hrec3 (o : OpId) := (@opSetOutput_op f2 d o) hnone2
  have hk3 := Keeps.opSetOutput f2 d f1.numVarnodes
  have hnum3 := opSetOutput_numOps f2 d f1.numVarnodes
  have hf3 : Frame f (f2.opSetOutput d f1.numVarnodes) [v] := by
    refine (hf2.mono fun _ hu => absurd hu List.not_mem_nil).opSetOutput (hnum2 ▸ hdlt) hblank.lt
      hnone2 hblank.fresh hblank.plain (fun u hu _ => ?_) fun o ho hod => ?_
    · rw [hop2, hdout] at hu
      exact List.mem_singleton.mpr (Option.some.inj hu).symm
    · exact absurd hdlt (not_lt.mpr (ho.trans hod))
  generalize f2.opSetOutput d f1.numVarnodes = f3 at *
  have hout3 (o : OpId) (u : VarnodeId) (hu : (f3.op o).output = some u) :
      (o = d ∧ u = f1.numVarnodes) ∨ (o ≠ d ∧ (f.op o).output = some u) := by
    rw [hrec3] at hu
    split_ifs at hu with ho
    · exact .inl ⟨ho, (Option.some.inj hu).symm⟩
    · exact .inr ⟨ho, hop2 ▸ hu⟩
  have hins3 (o : OpId) : (f3.op o).inrefs = (f.op o).inrefs := by
    rw [hrec3]
    split_ifs with ho
    · rw [ho, hop2]
    · rw [hop2]
  -- the pieces are cut from it
  have hkb := hk2.trans hk3
  have hwhole : Whole f f3 [v] (f.vn v).size f1.numVarnodes :=
    ⟨hblank.lt.trans_le hk3.le, .inl hblank.fresh, (hk3.constant _ hblank.lt).trans hblank.plain,
      (hk3.size _ hblank.lt).trans hsize⟩
  have hblanks : ∀ u ∈ us, Blank f f3 u ∧ u ≠ f1.numVarnodes := by
    intro u hu
    have hb := hothers u (hprep.blank u hu)
    have hlt := hprep.tile_lt u hu
    refine ⟨⟨hb.lt.trans_le hk3.le, hb.fresh, (hk3.constant u hb.lt).trans hb.plain, fun o ho => ?_,
      fun o ho hmem => ?_⟩, hlt.ne⟩
    · rcases hout3 o u ho with ⟨-, he⟩ | ⟨-, ho'⟩
      · exact hlt.ne he
      · exact absurd (hl.output_lt ho') (not_lt.mpr hb.fresh)
    · rw [hins3] at hmem
      exact absurd (hl.lt_of_mem_inrefs hmem) (not_lt.mpr hb.fresh)
  obtain ⟨f4, hf4, hframe4, hk4, hnum4, hsame4, hreads4, hval⟩ := splitPieces_spec hf3 hin hwhole
    (hprep.tiles.imp fun _ _ _ _ hu => hu.keeps hkb) hblanks hprep.nodup hne hlpos hlsum hsmall
    (some d)
  rw [hf4]
  -- all readers of `v` read it
  have hk34 := hkb.trans hk4
  have hvlt4 : v < f4.numVarnodes := hvlt.trans_le hk34.le
  have hlt4 : f1.numVarnodes < f4.numVarnodes := hwhole.lt.trans_le hk4.le
  have hc4 : (f4.vn f1.numVarnodes).constant = false :=
    (hk4.constant _ hwhole.lt).trans hwhole.plain
  have hunread : ∀ o, f.numOps ≤ o → v ∉ (f4.op o).inrefs := by
    intro o ho hmem
    rw [← hnum2, ← hnum3] at ho
    rcases hreads4 o ho v hmem with he | hge
    · exact hvlt.ne he
    · exact absurd (hvlt.trans_le hkb.le) (not_lt.mpr hge)
  have hrec5 := totalReplace_op hframe4.linked v f1.numVarnodes
  obtain ⟨hk5, -, -, hdef5⟩ := totalReplace_rest f4 v f1.numVarnodes
  have hframe5 := hframe4.totalReplace (List.mem_singleton_self v) hvlt4 hf1.keeps.le hlt4 hvlt.ne
    hc4 hunread
  generalize f4.totalReplace v f1.numVarnodes = f5 at *
  -- nothing defines `v` any more
  have hundef : ∀ o, (f4.op o).output ≠ some v := by
    intro o ho
    by_cases hlt : o < f3.numOps
    · rw [hsame4 o hlt] at ho
      rcases hout3 o v ho with ⟨-, he⟩ | ⟨hod, ho'⟩
      · exact hvlt.ne he
      · have hd := (hl.defs v o).mpr ho'
        rw [hdef] at hd
        exact hod (Option.some.inj hd).symm
    · rw [hnum3, hnum2] at hlt
      exact absurd hin.lt (not_lt.mpr (hframe4.newOut o (not_lt.mp hlt) v ho))
  have hnone5 : (f5.vn v).defOp = none := (hdef5 v).trans (hframe4.linked.defOp_none hundef)
  have hkg : Keeps f5 (f5.deleteVarnode v) := Keeps.modVn f5 v _ rfl rfl rfl rfl
  have hopg : (f5.deleteVarnode v).op = f5.op := rfl
  refine ⟨f5.deleteVarnode v, rfl, hframe5.deleteVarnode hnone5, fun d' hd' => ?_⟩
  generalize f5.deleteVarnode v = g at *
  have hdd : d' = d := by
    have hd := (hl.defs v d').mpr hd'
    rw [hdef] at hd
    exact (Option.some.inj hd).symm
  subst hdd
  have hk := hk4.trans (hk5.trans hkg)
  have hold (o : OpId) (ho : o < f.numOps) : f4.op o = f3.op o :=
    hsame4 o (by rw [hnum3, hnum2]; exact ho)
  refine ⟨f1.numVarnodes, l, us, ?_, fun o slot hslot => ?_, ⟨.inr hf1.keeps.le,
    hwhole.lt.trans_le hk.le, ?_, hlsum, hwithin,
    hprep.tiles.imp fun _ _ _ _ hu => hu.keeps (hkb.trans hk)⟩, fun env mem hc hw => ?_⟩
  · rw [hopg, hrec5, hold d' hdlt]
    change (f3.op d').output = _
    rw [hrec3, if_pos rfl]
  · have ho : o < f.numOps :=
      hl.lt_of_mem_descend (hl.mem_descend.mpr (List.mem_of_getElem? hslot))
    rw [hopg, hrec5, hold o ho]
    change ((f3.op o).inrefs.map _)[slot]? = _
    have hget : (f.op o).inrefs[slot]? = some v := hslot
    rw [hins3, List.getElem?_map, hget]
    exact congrArg some (if_pos rfl)
  · rw [hk.size _ hwhole.lt, hwhole.size]
  · -- seen from the graph in which the pieces are cut
    have hc4 : Computes f3.numOps f4 env := by
      rw [hnum3, hnum2]
      refine computes_of_ops hframe4.linked (hk5.trans hkg) (fun o ho => ?_) hc
      rw [hopg, hrec5, rereads_of_notMem (hunread o ho)]
      exact ⟨rfl, rfl, rfl⟩
    have hw3 := (HoldsWhole.later_iff hk hwhole.lt).mp hw
    exact (HoldsPieces.later_iff hk fun u hu => (hprep.tile_lt u hu).trans_le hkb.le).mpr
      (hval env mem hc4 hw3)

/-- `refine_input`. -/
theorem refineInput_spec (hl : f.Linked) (hin : AccessOf f range refine ps v)
    (hspace : InSpace f wordsize range refine.length)
    (hsmall : distance f range.off v + (f.vn v).size < 2 ^ 64) :
    ∃ g, f.refineInput wordsize v range.off refine = some g ∧ Frame f g [v] ∧
      InputKept f g range ps v := by
  obtain ⟨l0, hleads, hsum, hwithin⟩ := hin.leads
  have hlsum := sum_chop hsum
  have hlpos := chop_pos (n := (f.vn v).size) (leads_pos hleads)
  unfold refineInput
  rcases splitVarnodeByRefinement_eq hin.space hin.pos hleads hsum hspace with
    ⟨hone, hsplit⟩ | ⟨htwo, hsplit⟩
  · rw [hone] at hwithin
    refine ⟨f, by rw [hsplit]; rfl, (Frame.refl hl).mono fun _ hv => absurd hv List.not_mem_nil,
      _, _, fun _ _ hslot => hslot, hin.unsplit hwithin, fun env mem _ hw => holds_unsplit.mpr hw⟩
  have hprep := prepared hl range v (chop l0 (f.vn v).size)
  rw [hsplit]
  generalize chop l0 (f.vn v).size = l at *
  generalize List.range' f.numVarnodes l.length = us at *
  generalize layPieces range f (distance f range.off v) l = f1 at *
  have hne : us ≠ [] := by
    rintro rfl
    have hlen := hprep.length
    rw [List.length_nil] at hlen
    omega
  have hempty : us.isEmpty = false := List.isEmpty_eq_false_iff.mpr hne
  have hf1 : Frame f f1 [v] := hprep.frame.mono fun _ hu => absurd hu List.not_mem_nil
  have hv1 : f1.vn v = f.vn v := hprep.laid.vn v hin.lt
  have hvlt : v < f1.numVarnodes := hin.lt.trans_le hf1.keeps.le
  simp only [Option.bind_eq_bind, Option.bind_some, hempty, Bool.false_eq_true, if_false, hv1]
  have hwhole : Whole f f1 [v] (f.vn v).size v :=
    ⟨hvlt, .inr (List.mem_singleton_self v), hv1 ▸ hin.plain, by rw [hv1]⟩
  have hblanks : ∀ u ∈ us, Blank f f1 u ∧ u ≠ v := fun u hu =>
    ⟨hprep.blank u hu, (hin.lt.trans_le (hprep.fresh u hu)).ne'⟩
  obtain ⟨g, hg, hframe, hk, hnum, hsame, -, hval⟩ := splitPieces_spec hf1 hin hwhole hprep.tiles
    hblanks hprep.nodup hne hlpos hlsum hsmall none
  have hnum1 : f1.numOps = f.numOps := hprep.laid.numOps
  refine ⟨g, congrArg some hg, hframe, l, us, fun o slot hslot => ?_,
    ⟨.inl rfl, hvlt.trans_le hk.le, ?_, hlsum, hwithin,
      hprep.tiles.imp fun _ _ _ _ hu => hu.keeps hk⟩, fun env mem hc hw => ?_⟩
  · have ho : o < f.numOps :=
      hl.lt_of_mem_descend (hl.mem_descend.mpr (List.mem_of_getElem? hslot))
    rw [hsame o (hnum1 ▸ ho), hprep.laid.op]
    exact hslot
  · rw [hk.size v hvlt, hv1]
  · rw [← hnum1] at hc
    have hw1 := (HoldsWhole.later_iff hk hvlt).mp hw
    exact (HoldsPieces.later_iff hk hprep.tile_lt).mpr (hval env mem hc hw1)

/-! All accesses, one after the other. -/

theorem AccessOf.frame (h : AccessOf f range refine ps v) (hf : Frame f g vs) :
    AccessOf g range refine ps v := by
  have hk := hf.keeps
  obtain ⟨hlt, hspace, hpos, hplain, hleads⟩ := h
  refine ⟨hlt.trans_le hk.le, (congrArg Address.space (hk.loc v hlt)).trans hspace, ?_,
    (hk.constant v hlt).trans hplain, ?_⟩
  · rwa [hk.size v hlt]
  · rwa [hf.distance_eq hlt, hk.size v hlt]

/-- A free varnode with one reader. -/
def ReadReady (f : Funcdata) (v : VarnodeId) : Prop :=
  (f.vn v).defOp = none ∧ ∃ op, (f.vn v).descend = [op]

def WriteReady (f : Funcdata) (v : VarnodeId) : Prop := ∃ d, (f.vn v).defOp = some d

theorem ReadReady.frame (h : ReadReady f v) (hf : Frame f g vs) (hv : v ∉ vs)
    (hlt : v < f.numVarnodes) : ReadReady g v := by
  obtain ⟨hdef, op, hdesc⟩ := h
  refine ⟨hf.linked.defOp_none fun o ho => ?_, op, ?_⟩
  · have hd := (hf.linked0.defs v o).mpr (hf.outputs o v hlt ho)
    rw [hdef] at hd
    cases hd
  · have hperm : (g.vn v).descend.Perm (f.vn v).descend := by
      rw [List.perm_iff_count]
      intro o
      rw [hf.linked.count, hf.linked0.count, hf.readers o v hlt hv]
    rw [hdesc] at hperm
    exact List.perm_singleton.mp hperm

theorem WriteReady.frame (h : WriteReady f v) (hf : Frame f g vs) (hv : v ∉ vs) :
    WriteReady g v := by
  obtain ⟨d, hd⟩ := h
  exact ⟨d, (hf.linked.defs v d).mpr (hf.output d v hv ((hf.linked0.defs v d).mp hd))⟩

/-- A kind of access: `step` splits one that is ready, and `Kept` says what becomes of it. -/
structure Kind (wordsize : SpaceId → ℕ) (range : MemRange) (refine : List ℕ) (ps : List Part)
    (step : Funcdata → VarnodeId → Option Funcdata) (Ready : Funcdata → VarnodeId → Prop)
    (Kept : Funcdata → Funcdata → VarnodeId → Prop) : Prop where
  one : ∀ f v, f.Linked → AccessOf f range refine ps v → InSpace f wordsize range refine.length →
    distance f range.off v + (f.vn v).size < 2 ^ 64 → Ready f v →
    ∃ g, step f v = some g ∧ Frame f g [v] ∧ Kept f g v
  ready : ∀ f g vs v, Frame f g vs → v ∉ vs → v < f.numVarnodes → Ready f v → Ready g v
  later : ∀ f g g' vs ws v, Frame f g vs → Frame g g' ws →
    (∀ u ∈ ws, u < f.numVarnodes ∧ u ∉ vs) → v ∈ vs → Kept f g v → Kept f g' v
  earlier : ∀ f g g' vs v, Frame f g vs → v ∉ vs → v < f.numVarnodes → Kept g g' v → Kept f g' v

section Kinds

variable (wordsize : SpaceId → ℕ) (range : MemRange) (refine : List ℕ) (ps : List Part)

theorem kind_read : Kind wordsize range refine ps
    (fun f v => f.refineRead wordsize v range.off refine) ReadReady
    fun f g v => ReadKept f g range ps v where
  one _ _ hl hin hspace _ h := refineRead_spec hl hin hspace h.1 h.2.choose_spec
  ready _ _ _ _ hf hv hlt h := h.frame hf hv hlt
  later _ _ _ _ _ _ hf hg hws hv h := h.later hf hg hws hv
  earlier _ _ _ _ _ hf hv hlt h := h.earlier hf hv hlt

theorem kind_write :
    Kind wordsize range refine ps (fun f v => f.refineWrite wordsize v range.off refine) WriteReady
      fun f g v => WriteKept f g range ps v where
  one _ _ hl hin hspace hsmall h := refineWrite_spec hl hin hspace hsmall h.choose_spec
  ready _ _ _ _ hf hv _ h := h.frame hf hv
  later _ _ _ _ _ _ hf hg hws hv h := h.later hf hg hws hv
  earlier _ _ _ _ _ hf hv hlt h := h.earlier hf hv hlt

theorem kind_input :
    Kind wordsize range refine ps (fun f v => f.refineInput wordsize v range.off refine)
      (fun _ _ => True) fun f g v => InputKept f g range ps v where
  one _ _ hl hin hspace hsmall _ := refineInput_spec hl hin hspace hsmall
  ready _ _ _ _ _ _ _ _ := trivial
  later _ _ _ _ _ _ hf hg hws hv h := h.later hf hg hws hv
  earlier _ _ _ _ _ hf hv hlt h := h.earlier hf hv hlt

end Kinds

theorem InSpace.frame {size : ℕ} (h : InSpace f wordsize range size) (hf : Frame f g vs) :
    InSpace g wordsize range size := by
  unfold InSpace
  rw [hf.spaces]
  exact h

/-- What the splitting of some accesses needs of each. -/
structure Splittable (f : Funcdata) (range : MemRange) (refine : List ℕ) (ps : List Part)
    (v : VarnodeId) : Prop where
  access : AccessOf f range refine ps v
  small : distance f range.off v + (f.vn v).size < 2 ^ 64

theorem Splittable.frame (h : Splittable f range refine ps v) (hf : Frame f g vs) :
    Splittable g range refine ps v := by
  refine ⟨h.access.frame hf, ?_⟩
  rw [hf.distance_eq h.access.lt, hf.keeps.size v h.access.lt]
  exact h.small

/-- The accesses of one kind. -/
theorem Kind.foldlM {step : Funcdata → VarnodeId → Option Funcdata}
    {Ready : Funcdata → VarnodeId → Prop} {Kept : Funcdata → Funcdata → VarnodeId → Prop}
    (k : Kind wordsize range refine ps step Ready Kept) {us : List VarnodeId} (hl : f.Linked)
    (hspace : InSpace f wordsize range refine.length) (hnd : us.Nodup)
    (hacc : ∀ v ∈ us, Splittable f range refine ps v) (hready : ∀ v ∈ us, Ready f v) :
    ∃ g, us.foldlM step f = some g ∧ Frame f g us ∧ ∀ v ∈ us, Kept f g v := by
  induction us generalizing f with
  | nil => exact ⟨f, rfl, Frame.refl hl, fun _ hv => absurd hv List.not_mem_nil⟩
  | cons v us ih =>
    obtain ⟨hv, hacc⟩ := List.forall_mem_cons.mp hacc
    obtain ⟨hrv, hready⟩ := List.forall_mem_cons.mp hready
    obtain ⟨hnot, hnd⟩ := List.nodup_cons.mp hnd
    obtain ⟨g, hg, hf, hkept⟩ := k.one f v hl hv.access hspace hv.small hrv
    have hother (u : VarnodeId) (hu : u ∈ us) : u < f.numVarnodes ∧ u ∉ [v] :=
      ⟨(hacc u hu).access.lt, fun hin => hnot (List.mem_singleton.mp hin ▸ hu)⟩
    obtain ⟨g', hg', hf', hkept'⟩ := ih hf.linked (hspace.frame hf) hnd
      (fun u hu => (hacc u hu).frame hf)
      fun u hu => k.ready f g [v] u hf (hother u hu).2 (hother u hu).1 (hready u hu)
    refine ⟨g', ?_, hf.trans hf' hother, List.forall_mem_cons.mpr ⟨?_, fun u hu => ?_⟩⟩
    · rw [List.foldlM_cons, hg]
      exact hg'
    · exact k.later f g g' [v] us v hf hf' hother (List.mem_singleton_self v) hkept
    · exact k.earlier f g g' [v] u hf (hother u hu).2 (hother u hu).1 (hkept' u hu)

/-- The accesses of a range as `collect` gives them: each in one list, inside the range, no
constant; a read is free and has one reader, a write has its op. -/
structure Accesses (f : Funcdata) (range : MemRange) (c : Collected) : Prop where
  nodup : c.all.Nodup
  lt : ∀ v ∈ c.all, v < f.numVarnodes
  space : ∀ v ∈ c.all, (f.vn v).loc.space = range.space
  pos : ∀ v ∈ c.all, 0 < (f.vn v).size
  plain : ∀ v ∈ c.all, (f.vn v).constant = false
  inside : ∀ v ∈ c.all, distance f range.off v + (f.vn v).size ≤ range.size
  read : ∀ v ∈ c.read, ReadReady f v
  write : ∀ v ∈ c.write, WriteReady f v

/-- What the splitting of all accesses makes of a graph. -/
structure AllKept (f g : Funcdata) (range : MemRange) (ps : List Part) (c : Collected) : Prop where
  frame : Frame f g c.all
  read : ∀ v ∈ c.read, ReadKept f g range ps v
  write : ∀ v ∈ c.write, WriteKept f g range ps v
  input : ∀ v ∈ c.input, InputKept f g range ps v

theorem Accesses.splittable {c : Collected} (h : Accesses f range c) (hps : PartsOf f range c ps) :
    ∀ v ∈ c.all, Splittable f range (codes ps) ps v := fun v hv =>
  ⟨⟨h.lt v hv, h.space v hv, h.pos v hv, h.plain v hv,
    exists_leads hps.pos (hps.start v hv) (hps.stop v hv)⟩,
    ((h.inside v hv).trans hps.small).trans_lt (by norm_num)⟩

/-- Reads, then writes, then inputs. -/
theorem refineAll_spec {c : Collected} (hl : f.Linked) (h : Accesses f range c)
    (hps : PartsOf f range c ps) (hspace : InSpace f wordsize range range.size) :
    ∃ g, refineAll wordsize f range.off (codes ps) c = some g ∧ AllKept f g range ps c := by
  have hlen : (codes ps).length = range.size := (length_codes hps.pos).trans hps.sum
  rw [← hlen] at hspace
  have hsplit := h.splittable hps
  obtain ⟨hread, hwi, hdisj⟩ := List.nodup_append'.mp h.nodup
  obtain ⟨hwrite, hinput, hdisj'⟩ := List.nodup_append'.mp hwi
  have hr (v : VarnodeId) (hv : v ∈ c.read) : v ∈ c.all := List.mem_append_left _ hv
  have hw (v : VarnodeId) (hv : v ∈ c.write) : v ∈ c.all :=
    List.mem_append_right _ (List.mem_append_left _ hv)
  have hi (v : VarnodeId) (hv : v ∈ c.input) : v ∈ c.all :=
    List.mem_append_right _ (List.mem_append_right _ hv)
  -- the reads
  obtain ⟨g1, hg1, hf1, hk1⟩ := (kind_read wordsize range (codes ps) ps).foldlM hl hspace hread
    (fun v hv => hsplit v (hr v hv)) h.read
  have hnr (v : VarnodeId) (hv : v ∈ c.write ++ c.input) : v ∉ c.read := fun hin => hdisj hin hv
  -- the writes
  obtain ⟨g2, hg2, hf2, hk2⟩ := (kind_write wordsize range (codes ps) ps).foldlM hf1.linked
    (hspace.frame hf1) hwrite (fun v hv => (hsplit v (hw v hv)).frame hf1) fun v hv =>
      (h.write v hv).frame hf1 (hnr v (List.mem_append_left _ hv))
  have hw1 (v : VarnodeId) (hv : v ∈ c.write) : v < f.numVarnodes ∧ v ∉ c.read :=
    ⟨h.lt v (hw v hv), hnr v (List.mem_append_left _ hv)⟩
  have hf12 := hf1.trans hf2 hw1
  have hi2 (v : VarnodeId) (hv : v ∈ c.input) : v < f.numVarnodes ∧ v ∉ c.read ++ c.write :=
    ⟨h.lt v (hi v hv), fun hin => (List.mem_append.mp hin).elim
      (hnr v (List.mem_append_right _ hv)) fun hin => hdisj' hin hv⟩
  -- the inputs
  obtain ⟨g3, hg3, hf3, hk3⟩ := (kind_input wordsize range (codes ps) ps).foldlM hf12.linked
    (hspace.frame hf12) hinput (fun v hv => (hsplit v (hi v hv)).frame hf12) fun _ _ => trivial
  refine ⟨g3, ?_, ?_, fun v hv => ?_, fun v hv => ?_, fun v hv => ?_⟩
  · unfold refineAll
    simp only [hg1, hg2, Option.bind_eq_bind, Option.bind_some]
    exact hg3
  · have hall := hf12.trans hf3 hi2
    rwa [List.append_assoc] at hall
  · have hlast := (hk1 v hv).later hf1 hf2 hw1 hv
    exact hlast.later hf12 hf3 hi2 (List.mem_append_left _ hv)
  · have hmid := (hk2 v hv).earlier hf1 (hw1 v hv).2 (hw1 v hv).1
    exact hmid.later hf12 hf3 hi2 (List.mem_append_right _ hv)
  · exact (hk3 v hv).earlier hf12 (hi2 v hv).2 (hi2 v hv).1

end Funcdata

namespace Refine

open Lib

/-! The pieces in the task list. -/

/-- The ranges of consecutive pieces, from `i` on. -/
def pieceRanges (removed : MemRange) : ℕ → List ℕ → List MemRange
  | _, [] => []
  | i, n :: l =>
    ⟨removed.space, removed.off + BitVec.ofNat 64 i, n, removed.flags⟩ ::
      pieceRanges removed (i + n) l

theorem insertIdx_eq {α : Type*} {l : List α} {i : ℕ} {x : α} (h : i ≤ l.length) :
    l.insertIdx i x = l.take i ++ x :: l.drop i := by
  induction i generalizing l with
  | zero => rfl
  | succ i ih =>
    cases l with
    | nil => exact absurd h (Nat.not_succ_le_zero i)
    | cons y l =>
      rw [List.insertIdx_succ_cons, ih (Nat.le_of_succ_le_succ h)]
      rfl

/-- The last loop puts the pieces to the place of the range. -/
theorem carve_spec {removed : MemRange} {refine : List ℕ} {l : List ℕ} {cut fuel at_ : ℕ}
    (hleads : Leads refine cut l) (hlen : refine.length = removed.size) (hfuel : l.length < fuel)
    (curPass : ℤ) (disjoint : List MemRange) (global : LocationMap) (hat : at_ ≤ disjoint.length) :
    ∃ global', carve removed refine curPass fuel cut (removed.off + BitVec.ofNat 64 cut) at_
      (disjoint, global) =
        some (disjoint.take at_ ++ (pieceRanges removed cut l ++ disjoint.drop at_), global') := by
  induction l generalizing cut fuel at_ disjoint global with
  | nil =>
    obtain ⟨fuel, rfl⟩ := Nat.exists_eq_succ_of_ne_zero (Nat.ne_zero_of_lt hfuel)
    have hcut : cut = refine.length := hleads
    refine ⟨global, ?_⟩
    rw [carve, if_pos (hcut.trans hlen).ge]
    simp [pieceRanges]
  | cons n l ih =>
    obtain ⟨fuel, rfl⟩ := Nat.exists_eq_succ_of_ne_zero (Nat.ne_zero_of_lt hfuel)
    obtain ⟨hcell, -, hnext⟩ := hleads
    have hlt := (List.getElem?_eq_some_iff.mp hcell).1
    have hinsert : at_ + 1 ≤ (disjoint.insertIdx at_
        ⟨removed.space, removed.off + BitVec.ofNat 64 cut, n, removed.flags⟩).length := by
      rw [List.length_insertIdx_of_le_length hat]
      exact Nat.succ_le_succ hat
    obtain ⟨global', hrest⟩ := ih hnext (Nat.lt_of_succ_lt_succ hfuel) (disjoint.insertIdx at_
      ⟨removed.space, removed.off + BitVec.ofNat 64 cut, n, removed.flags⟩)
      (global.add ⟨removed.space, removed.off + BitVec.ofNat 64 cut, BitVec.ofNat 32 n, curPass⟩).1
      hinsert
    refine ⟨global', ?_⟩
    have hoff : removed.off + BitVec.ofNat 64 cut + BitVec.ofNat 64 n =
        removed.off + BitVec.ofNat 64 (cut + n) := by
      rw [BitVec.ofNat_add, add_assoc]
    rw [carve, if_neg (not_le.mpr (hlen ▸ hlt))]
    simp only [hcell, Option.bind_eq_bind, Option.bind_some, hoff]
    rw [hrest]
    rw [insertIdx_eq hat]
    have hone (x : MemRange) : disjoint.take at_ ++ x :: disjoint.drop at_ =
        disjoint.take at_ ++ [x] ++ disjoint.drop at_ := by simp
    have hlen1 (x : MemRange) : (disjoint.take at_ ++ [x]).length = at_ + 1 := by
      rw [List.length_append, List.length_take, Nat.min_eq_left hat, List.length_singleton]
    rw [hone, List.take_left' (hlen1 _), List.drop_left' (hlen1 _), pieceRanges]
    simp

/-- `refinement` keeps every byte: there is no panic, and where the range is refined, its pieces
tile it with all the cuts of its accesses, they take its place in the task list, and each access
becomes pieces with the same bytes. All values go with values of the new ops. -/
theorem refinement_keeps_bytes {wordsize : SpaceId → ℕ} {heritagePass : ℤ} {f : Funcdata}
    {disjoint : List MemRange} {globaldisjoint : LocationMap} {pos : ℕ} {c : Collected}
    {range : MemRange} (hpos : disjoint[pos]? = some range) (hl : f.Linked)
    (hacc : f.Accesses range c) (hspace : f.InSpace wordsize range range.size) :
    ∃ r, refinement wordsize heritagePass f disjoint globaldisjoint pos c = some r ∧
      ∀ out, r = some out → ∃ ps, out.refine = codes ps ∧ PartsOf f range c ps ∧
        out.disjoint = disjoint.take pos ++ (pieceRanges range 0 (sizes ps) ++
          disjoint.drop (pos + 1)) ∧
        f.AllKept out.graph range ps c ∧
        ∀ env : VarnodeId → ℕ, ∃ env',
          (∀ v, (∀ o, f.numOps ≤ o → (out.graph.op o).output ≠ some v) → env' v = env v) ∧
            Funcdata.Computes f.numOps out.graph env' := by
  obtain ⟨r, hr, hparts⟩ := partition_spec hacc.inside
  unfold refinement
  simp only [hpos, hr, Option.bind_eq_bind, Option.bind_some]
  cases r with
  | none => exact ⟨none, rfl, fun _ hout => nomatch hout⟩
  | some refine =>
    obtain ⟨ps, rfl, hps⟩ := hparts refine rfl
    obtain ⟨g, hg, hkept⟩ := Funcdata.refineAll_spec hl hacc hps hspace
    have hlen : (codes ps).length = range.size := (length_codes hps.pos).trans hps.sum
    have hleads := leads_codes [] hps.pos
    have hcount : (sizes ps).length < range.size + 1 := by
      have hone : ∀ n ∈ sizes ps, 1 ≤ n := Funcdata.leads_pos hleads
      have hle := List.length_le_sum_of_one_le (sizes ps) hone
      rw [hps.sum] at hle
      exact Nat.lt_succ_of_le hle
    have hposlt : pos < disjoint.length := (List.getElem?_eq_some_iff.mp hpos).1
    have hat : pos ≤ (disjoint.eraseIdx pos).length := by
      rw [List.length_eraseIdx_of_lt hposlt]
      omega
    obtain ⟨global', hcarve⟩ := carve_spec hleads hlen hcount
      ((globaldisjoint.erase range.space range.off).2.getD heritagePass) (disjoint.eraseIdx pos)
      (globaldisjoint.erase range.space range.off).1 hat
    have hzero : range.off + BitVec.ofNat 64 (codes []).length = range.off := by simp [codes]
    rw [hzero] at hcarve
    have hcarve : carve range (codes ps) ((globaldisjoint.erase range.space range.off).2.getD
        heritagePass) (range.size + 1) 0 range.off pos (disjoint.eraseIdx pos,
          (globaldisjoint.erase range.space range.off).1) = _ := hcarve
    simp only [hg, hcarve, Option.bind_some]
    refine ⟨_, rfl, fun out hout => ?_⟩
    obtain rfl := Option.some.inj hout
    refine ⟨ps, rfl, hps, ?_, hkept, fun env => hkept.frame.exists_computes env⟩
    have htake : (disjoint.eraseIdx pos).take pos = disjoint.take pos := by
      rw [List.eraseIdx_eq_take_drop_succ, List.take_append_of_le_length (by simp; omega),
        List.take_take, Nat.min_self]
    have hdrop : (disjoint.eraseIdx pos).drop pos = disjoint.drop (pos + 1) := by
      rw [List.eraseIdx_eq_take_drop_succ, List.drop_append, List.length_take,
        Nat.min_eq_left hposlt.le, Nat.sub_self, List.drop_of_length_le (by simp), List.nil_append,
        List.drop_zero]
    change (disjoint.eraseIdx pos).take pos ++ _ = _
    rw [htake, hdrop]
    rfl

/-! A write that starts inside a joined piece. -/

/-- Every new SUBPIECE has a piece of the task list. -/
def WritesPieces (f : Funcdata) (out : Refined) : Prop :=
  ∀ o, f.numOps ≤ o → (out.graph.op o).opcode = .subpiece →
    ∀ v, (out.graph.op o).output = some v → ∃ r ∈ out.disjoint,
      r.space = (out.graph.vn v).loc.space ∧ r.off = (out.graph.vn v).loc.offset ∧
        r.size = (out.graph.vn v).size

/-- The bytes 1 to 8 are written, and the bytes 0 to 4 are read: the cuts leave 1 + 3 + 4 bytes. -/
def staggeredVarnodes : List Varnode :=
  [{ loc := ⟨1, 1⟩, size := 7, written := true, insert := true, defOp := some 0,
      nzm := calcMask 7 },
    { loc := ⟨2, 0⟩, size := 7, input := true, insert := true, descend := [0], nzm := calcMask 7 },
    { loc := ⟨1, 0⟩, size := 4, descend := [1], nzm := calcMask 4 },
    { loc := ⟨2, 8⟩, size := 4, written := true, insert := true, defOp := some 1,
      nzm := calcMask 4 }]

def staggeredOps : List PcodeOp :=
  [{ opcode := .copy, parent := some 0, output := some 0, inrefs := [1] },
    { opcode := .copy, parent := some 0, output := some 3, inrefs := [2] }]

def staggeredGraph : Funcdata :=
  Funcdata.ofLists staggeredVarnodes staggeredOps [{ ops := [0, 1] }]

def staggeredRange : MemRange := ⟨1, 0, 8, 0⟩

def staggeredAccesses : Collected := ⟨[2], [0], []⟩

theorem linked_staggered : staggeredGraph.Linked :=
  Funcdata.linked_ofLists (by decide +kernel)

theorem accesses_staggered : staggeredGraph.Accesses staggeredRange staggeredAccesses where
  nodup := by decide
  lt := by decide
  space := by decide
  pos := by decide
  plain := by decide
  inside := by decide
  read v hv := by
    obtain rfl := List.mem_singleton.mp hv
    exact ⟨rfl, 1, rfl⟩
  write v hv := by
    obtain rfl := List.mem_singleton.mp hv
    exact ⟨0, rfl⟩

theorem inSpace_staggered :
    staggeredGraph.InSpace (fun _ => 1) staggeredRange staggeredRange.size := by
  unfold Funcdata.InSpace
  decide +kernel

theorem refinement_keeps_bytes_staggered :
    ∃ r, refinement (fun _ => 1) 0 staggeredGraph [staggeredRange] ⟨fun _ => []⟩ 0
      staggeredAccesses = some r ∧
      ∀ out, r = some out → ∃ ps, out.refine = codes ps ∧
        PartsOf staggeredGraph staggeredRange staggeredAccesses ps ∧
        out.disjoint = [staggeredRange].take 0 ++ (pieceRanges staggeredRange 0 (sizes ps) ++
          [staggeredRange].drop (0 + 1)) ∧
        staggeredGraph.AllKept out.graph staggeredRange ps staggeredAccesses ∧
        ∀ env : VarnodeId → ℕ, ∃ env', (∀ v, (∀ o, staggeredGraph.numOps ≤ o →
          (out.graph.op o).output ≠ some v) → env' v = env v) ∧
            Funcdata.Computes staggeredGraph.numOps out.graph env' :=
  refinement_keeps_bytes rfl linked_staggered accesses_staggered inSpace_staggered

/-- 1 + 3 bytes become a piece of 4, but the write gets one of 3. -/
theorem refinement_not_writesPieces : ¬∀ (wordsize : SpaceId → ℕ) (heritagePass : ℤ) (f : Funcdata)
    (disjoint : List MemRange) (globaldisjoint : LocationMap) (pos : ℕ) (c : Collected)
    (range : MemRange), disjoint[pos]? = some range → f.Linked → f.Accesses range c →
    f.InSpace wordsize range range.size → ∀ out,
    refinement wordsize heritagePass f disjoint globaldisjoint pos c = some (some out) →
      WritesPieces f out := by
  intro h
  have hfires : (refinement (fun _ => 1) 0 staggeredGraph [staggeredRange] ⟨fun _ => []⟩ 0
      staggeredAccesses).any (fun r => r.any fun out => decide
        ((out.graph.op 2).opcode = .subpiece ∧ (out.graph.op 2).output = some 4 ∧
          ∀ r ∈ out.disjoint, ¬(r.space = (out.graph.vn 4).loc.space ∧
            r.off = (out.graph.vn 4).loc.offset ∧ r.size = (out.graph.vn 4).size))) = true := by
    decide +kernel
  obtain ⟨r, hout, hr⟩ := (Option.any_eq_true _ _).mp hfires
  obtain ⟨out, rfl, hr⟩ := (Option.any_eq_true _ _).mp hr
  obtain ⟨hcode, hv, hnone⟩ := of_decide_eq_true hr
  have hpieces := h (fun _ => 1) 0 staggeredGraph [staggeredRange] ⟨fun _ => []⟩ 0
    staggeredAccesses staggeredRange rfl linked_staggered accesses_staggered inSpace_staggered out
    hout
  obtain ⟨piece, hin, hpiece⟩ := hpieces 2 le_rfl hcode 4 hv
  exact hnone piece hin hpiece

end Refine
end Mosura
