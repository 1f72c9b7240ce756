import Mathlib

/-! Adjacency lists of directed multigraphs: parallel edges have names, so that an edit says which
one it is about. -/

section Lists

variable {α β : Type*} [DecidableEq α] {l : List α} {a : α} {i : ℕ}

theorem List.Nodup.idxOf_eq (h : l.Nodup) (ha : l[i]? = some a) : l.idxOf a = i := by
  obtain ⟨hi, rfl⟩ := List.getElem?_eq_some_iff.mp ha
  exact h.idxOf_getElem i hi

theorem List.Nodup.erase_eq_eraseIdx (h : l.Nodup) (ha : l[i]? = some a) :
    l.erase a = l.eraseIdx i :=
  List.erase_eq_eraseIdx_of_idxOf (h.idxOf_eq ha)

theorem List.map_update_of_notMem (h : a ∉ l) (g : α → β) (b : β) :
    l.map (Function.update g a b) = l.map g := by
  refine List.map_congr_left fun x hx => ?_
  have hne : x ≠ a := fun he => h (he ▸ hx)
  exact Function.update_of_ne hne _ _

/-- Giving the one entry at position `i` another image changes the list of images there. -/
theorem List.Nodup.map_update_eq_set (h : l.Nodup) (ha : l[i]? = some a) (g : α → β) (b : β) :
    l.map (Function.update g a b) = (l.map g).set i b := by
  rw [h.map_update, if_pos (List.mem_of_getElem? ha), h.idxOf_eq ha]

end Lists

/-- An edge named by the vertices it first led from and to, and a number. -/
structure EdgeName (V : Type*) where
  source : V
  target : V
  number : ℕ
  deriving DecidableEq

/-- The edges out of and into each vertex, in order, with both ends of each edge. -/
structure Wiring (V E : Type*) where
  outs : V → List E
  ins : V → List E
  src : E → V
  dst : E → V

namespace Wiring

variable {V E : Type*}

/-- Each edge is listed once at both of its ends and nowhere else. -/
structure Sound (W : Wiring V E) : Prop where
  outs_nodup : ∀ v, (W.outs v).Nodup
  ins_nodup : ∀ v, (W.ins v).Nodup
  of_outs : ∀ {v e}, e ∈ W.outs v → W.src e = v ∧ e ∈ W.ins (W.dst e)
  of_ins : ∀ {v e}, e ∈ W.ins v → W.dst e = v ∧ e ∈ W.outs (W.src e)

variable {W : Wiring V E} {a b v : V} {e e' : E}

/-- The neighbours listed on the two sides are inverse multisets. -/
theorem Sound.count_eq [DecidableEq V] (h : W.Sound) (a b : V) :
    ((W.outs a).map W.dst).count b = ((W.ins b).map W.src).count a := by
  have hperm : ((W.outs a).filter fun e => W.dst e == b).Perm
      ((W.ins b).filter fun e => W.src e == a) := by
    rw [List.perm_ext_iff_of_nodup ((h.outs_nodup a).filter _) ((h.ins_nodup b).filter _)]
    intro e
    rw [List.mem_filter, List.mem_filter, beq_iff_eq, beq_iff_eq]
    constructor
    · rintro ⟨he, rfl⟩
      exact (h.of_outs he).symm
    · rintro ⟨he, rfl⟩
      exact (h.of_ins he).symm
  rw [List.count, List.count, List.countP_map, List.countP_map, List.countP_eq_length_filter,
    List.countP_eq_length_filter]
  exact hperm.length_eq

/-- The wiring read backwards. -/
def flip (W : Wiring V E) : Wiring V E := ⟨W.ins, W.outs, W.dst, W.src⟩

theorem Sound.flip (h : W.Sound) : W.flip.Sound := ⟨h.ins_nodup, h.outs_nodup, h.of_ins, h.of_outs⟩

section Edits

variable [DecidableEq E]

/-- The edge `e` is gone. -/
def drop (W : Wiring V E) (e : E) : Wiring V E where
  outs v := (W.outs v).erase e
  ins v := (W.ins v).erase e
  src := W.src
  dst := W.dst

theorem Sound.drop (h : W.Sound) (e : E) : (W.drop e).Sound where
  outs_nodup v := (h.outs_nodup v).erase e
  ins_nodup v := (h.ins_nodup v).erase e
  of_outs {v x} hx := by
    obtain ⟨hne, hx⟩ := (h.outs_nodup v).mem_erase_iff.mp hx
    obtain ⟨hs, hin⟩ := h.of_outs hx
    exact ⟨hs, (h.ins_nodup _).mem_erase_iff.mpr ⟨hne, hin⟩⟩
  of_ins {v x} hx := by
    obtain ⟨hne, hx⟩ := (h.ins_nodup v).mem_erase_iff.mp hx
    obtain ⟨hd, hout⟩ := h.of_ins hx
    exact ⟨hd, (h.outs_nodup _).mem_erase_iff.mpr ⟨hne, hout⟩⟩

/-- The in-edge `e` of a vertex is spliced onto its out-edge `e'`, which takes the place of `e` where
that started. -/
def splice (W : Wiring V E) (e e' : E) : Wiring V E where
  outs v := ((W.outs v).erase e').map fun x => if x = e then e' else x
  ins v := (W.ins v).erase e
  src := Function.update W.src e' (W.src e)
  dst := W.dst

theorem mem_splice (h : W.Sound) {x : E} : x ∈ (W.splice e e').outs v ↔
    x ≠ e ∧ x ≠ e' ∧ x ∈ W.outs v ∨ x = e' ∧ e ≠ e' ∧ e ∈ W.outs v := by
  simp only [splice, List.mem_map, (h.outs_nodup v).mem_erase_iff]
  constructor
  · rintro ⟨y, ⟨hne, hy⟩, rfl⟩
    split_ifs with hye
    · exact .inr ⟨rfl, hye ▸ hne, hye ▸ hy⟩
    · exact .inl ⟨hye, hne, hy⟩
  · rintro (⟨hxe, hxe', hx⟩ | ⟨rfl, hne, he⟩)
    · exact ⟨x, ⟨hxe', hx⟩, if_neg hxe⟩
    · exact ⟨e, ⟨hne, he⟩, if_pos rfl⟩

theorem Sound.splice (h : W.Sound) (he : e ∈ W.ins v) (he' : e' ∈ W.outs v) :
    (W.splice e e').Sound where
  outs_nodup u := by
    refine List.Nodup.map_on ?_ ((h.outs_nodup u).erase e')
    intro x hx y hy hxy
    have hx := ((h.outs_nodup u).mem_erase_iff.mp hx).1
    have hy := ((h.outs_nodup u).mem_erase_iff.mp hy).1
    split_ifs at hxy with hxe hye hye
    · exact hxe.trans hye.symm
    · exact absurd hxy.symm hy
    · exact absurd hxy hx
    · exact hxy
  ins_nodup u := (h.ins_nodup u).erase e
  of_outs {u x} hx := by
    rcases (mem_splice h).mp hx with ⟨hxe, hxe', hx⟩ | ⟨rfl, hne, he⟩
    · obtain ⟨hs, hin⟩ := h.of_outs hx
      exact ⟨(Function.update_of_ne hxe' _ _).trans hs,
        (h.ins_nodup _).mem_erase_iff.mpr ⟨hxe, hin⟩⟩
    · exact ⟨(Function.update_self ..).trans (h.of_outs he).1,
        (h.ins_nodup _).mem_erase_iff.mpr ⟨hne.symm, (h.of_outs he').2⟩⟩
  of_ins {u x} hx := by
    obtain ⟨hxe, hx⟩ := (h.ins_nodup u).mem_erase_iff.mp hx
    obtain ⟨hd, hout⟩ := h.of_ins hx
    refine ⟨hd, (mem_splice h).mpr ?_⟩
    by_cases hxe' : x = e'
    · subst hxe'
      have hs : (W.splice e x).src x = W.src e := Function.update_self ..
      rw [hs]
      exact .inr ⟨rfl, Ne.symm hxe, (h.of_ins he).2⟩
    · have hs : (W.splice e e').src x = W.src x := Function.update_of_ne hxe' _ _
      rw [hs]
      exact .inl ⟨hxe, hxe', hout⟩

variable [DecidableEq V]

/-- The edge `e` leaves `b` instead, as the last one. -/
def moveTail (W : Wiring V E) (e : E) (b : V) : Wiring V E where
  outs v := (W.outs v).erase e ++ if v = b then [e] else []
  ins := W.ins
  src := Function.update W.src e b
  dst := W.dst

theorem mem_erase_append (h : (W.outs v).Nodup) {x : E} :
    x ∈ (W.outs v).erase e ++ (if v = b then [e] else []) ↔
      x ≠ e ∧ x ∈ W.outs v ∨ x = e ∧ v = b := by
  rw [List.mem_append, h.mem_erase_iff]
  split_ifs with hv
  · rw [List.mem_singleton, and_iff_left hv]
  · rw [or_iff_left List.not_mem_nil, or_iff_left fun hx => hv hx.2]

theorem nodup_erase_append {l : List E} (h : l.Nodup) (e : E) (p : Prop) [Decidable p] :
    (l.erase e ++ if p then [e] else []).Nodup := by
  split_ifs
  · refine (List.nodup_append).mpr ⟨h.erase e, List.nodup_singleton e, ?_⟩
    intro x hx y hy hxy
    rw [List.mem_singleton.mp hy] at hxy
    exact (h.mem_erase_iff.mp hx).1 hxy
  · rw [List.append_nil]
    exact h.erase e

theorem Sound.moveTail (h : W.Sound) (he : e ∈ W.outs a) (b : V) : (W.moveTail e b).Sound where
  outs_nodup v := nodup_erase_append (h.outs_nodup v) e _
  ins_nodup := h.ins_nodup
  of_outs {v x} hx := by
    rcases (mem_erase_append (h.outs_nodup v)).mp hx with ⟨hne, hx⟩ | ⟨rfl, rfl⟩
    · exact ⟨(Function.update_of_ne hne _ _).trans (h.of_outs hx).1, (h.of_outs hx).2⟩
    · exact ⟨Function.update_self .., (h.of_outs he).2⟩
  of_ins {v x} hx := by
    refine ⟨(h.of_ins hx).1, (mem_erase_append (h.outs_nodup _)).mpr ?_⟩
    by_cases hxe : x = e
    · exact .inr ⟨hxe, hxe ▸ Function.update_self ..⟩
    · refine .inl ⟨hxe, ?_⟩
      have hs : (W.moveTail e b).src x = W.src x := Function.update_of_ne hxe _ _
      exact hs.symm ▸ (h.of_ins hx).2

/-- The edge `e` leads to `b` instead, as its last in-edge. -/
def moveHead (W : Wiring V E) (e : E) (b : V) : Wiring V E where
  outs := W.outs
  ins v := (W.ins v).erase e ++ if v = b then [e] else []
  src := W.src
  dst := Function.update W.dst e b

theorem Sound.moveHead (h : W.Sound) (he : e ∈ W.outs a) (b : V) : (W.moveHead e b).Sound :=
  (h.flip.moveTail (h.of_outs he).2 b).flip

/-- A new edge `e` from `a` to `b`. -/
def add (W : Wiring V E) (e : E) (a b : V) : Wiring V E where
  outs v := W.outs v ++ if v = a then [e] else []
  ins v := W.ins v ++ if v = b then [e] else []
  src := Function.update W.src e a
  dst := Function.update W.dst e b

omit [DecidableEq V] [DecidableEq E] in
theorem mem_append_ite {l : List E} {p : Prop} [Decidable p] {x : E} :
    x ∈ l ++ (if p then [e] else []) ↔ x ∈ l ∨ x = e ∧ p := by
  rw [List.mem_append]
  split_ifs with hp
  · rw [List.mem_singleton, and_iff_left hp]
  · rw [or_iff_left List.not_mem_nil, or_iff_left fun hx => hp hx.2]

theorem nodup_append_ite {l : List E} (h : l.Nodup) (he : e ∉ l) (p : Prop) [Decidable p] :
    (l ++ if p then [e] else []).Nodup := by
  have hl := nodup_erase_append h e p
  rwa [List.erase_of_not_mem he] at hl

theorem Sound.add (h : W.Sound) (hout : ∀ v, e ∉ W.outs v) (hin : ∀ v, e ∉ W.ins v) (a b : V) :
    (W.add e a b).Sound where
  outs_nodup v := nodup_append_ite (h.outs_nodup v) (hout v) _
  ins_nodup v := nodup_append_ite (h.ins_nodup v) (hin v) _
  of_outs {v x} hx := by
    rcases mem_append_ite.mp hx with hx | ⟨rfl, rfl⟩
    · have hne : x ≠ e := fun he => hout v (he ▸ hx)
      have hd : (W.add e a b).dst x = W.dst x := Function.update_of_ne hne _ _
      rw [hd]
      exact ⟨(Function.update_of_ne hne _ _).trans (h.of_outs hx).1,
        mem_append_ite.mpr (.inl (h.of_outs hx).2)⟩
    · exact ⟨Function.update_self .., mem_append_ite.mpr (.inr ⟨rfl, Function.update_self ..⟩)⟩
  of_ins {v x} hx := by
    rcases mem_append_ite.mp hx with hx | ⟨rfl, rfl⟩
    · have hne : x ≠ e := fun he => hin v (he ▸ hx)
      have hs : (W.add e a b).src x = W.src x := Function.update_of_ne hne _ _
      rw [hs]
      exact ⟨(Function.update_of_ne hne _ _).trans (h.of_ins hx).1,
        mem_append_ite.mpr (.inl (h.of_ins hx).2)⟩
    · exact ⟨Function.update_self .., mem_append_ite.mpr (.inr ⟨rfl, Function.update_self ..⟩)⟩

end Edits

section Absorb

variable [DecidableEq V]

/-- `a` takes over the out-edges of `b`, and `b` has no edges any more. -/
def absorb (W : Wiring V E) (a b : V) : Wiring V E where
  outs v := if v = b then [] else if v = a then W.outs b else W.outs v
  ins v := if v = b then [] else W.ins v
  src x := if W.src x = b then a else W.src x
  dst := W.dst

/-- What `a` absorbs is led to by its one out-edge only. -/
theorem Sound.absorb (h : W.Sound) (ha : W.outs a = [e]) (hb : W.ins b = [e]) :
    (W.absorb a b).Sound where
  outs_nodup v := by
    simp only [Wiring.absorb]
    split_ifs
    · exact List.nodup_nil
    · exact h.outs_nodup b
    · exact h.outs_nodup v
  ins_nodup v := by
    simp only [Wiring.absorb]
    split_ifs
    · exact List.nodup_nil
    · exact h.ins_nodup v
  of_outs {v x} hx := by
    have hsrc : W.src e = a := (h.of_outs (ha ▸ List.mem_singleton_self e)).1
    simp only [Wiring.absorb] at hx ⊢
    split_ifs at hx with hvb hva
    · exact absurd hx List.not_mem_nil
    · -- an out-edge of `b` leads elsewhere: the one into `b` starts in `a`
      obtain ⟨hs, hin⟩ := h.of_outs hx
      have hd : W.dst x ≠ b := fun hd => by
        rw [hd, hb, List.mem_singleton] at hin
        exact hvb (hva.trans (hsrc.symm.trans (hin ▸ hs)))
      rw [if_pos hs, if_neg hd]
      exact ⟨hva.symm, hin⟩
    · obtain ⟨hs, hin⟩ := h.of_outs hx
      have hd : W.dst x ≠ b := fun hd => by
        rw [hd, hb, List.mem_singleton] at hin
        exact hva (hs.symm.trans (hin ▸ hsrc))
      rw [if_neg (hs ▸ hvb), if_neg hd]
      exact ⟨hs, hin⟩
  of_ins {v x} hx := by
    have hdst : W.dst e = b := (h.of_ins (hb ▸ List.mem_singleton_self e)).1
    simp only [Wiring.absorb] at hx ⊢
    split_ifs at hx with hvb
    · exact absurd hx List.not_mem_nil
    · obtain ⟨hd, hout⟩ := h.of_ins hx
      have hne : x ≠ e := fun he => hvb (hd.symm.trans (he ▸ hdst))
      have hsa : W.src x ≠ a := fun hs => by
        rw [hs, ha, List.mem_singleton] at hout
        exact hne hout
      refine ⟨hd, ?_⟩
      by_cases hs : W.src x = b
      · rw [if_pos hs, if_neg fun hab => hsa (hs.trans hab.symm), if_pos rfl]
        exact hs ▸ hout
      · rw [if_neg hs, if_neg hs, if_neg hsa]
        exact hout

end Absorb

/-- The vertices `keep` says are kept and get the names `num`; `old` leads back. -/
def compact (W : Wiring V E) (keep : V → Bool) (num : V → V) (old : V → Option V) : Wiring V E where
  outs v := (old v).elim [] fun b => (W.outs b).filter fun x => keep (W.dst x)
  ins v := (old v).elim [] fun b => (W.ins b).filter fun x => keep (W.src x)
  src x := num (W.src x)
  dst x := num (W.dst x)

theorem Sound.compact (h : W.Sound) {keep : V → Bool} {num : V → V} {old : V → Option V}
    (hold : ∀ v b, old v = some b → keep b = true ∧ num b = v)
    (hnum : ∀ b, keep b = true → old (num b) = some b) : (W.compact keep num old).Sound where
  outs_nodup v := by
    cases hv : old v with
    | none => simp only [Wiring.compact, hv, Option.elim_none, List.nodup_nil]
    | some b =>
      simp only [Wiring.compact, hv, Option.elim_some]
      exact (h.outs_nodup b).filter _
  ins_nodup v := by
    cases hv : old v with
    | none => simp only [Wiring.compact, hv, Option.elim_none, List.nodup_nil]
    | some b =>
      simp only [Wiring.compact, hv, Option.elim_some]
      exact (h.ins_nodup b).filter _
  of_outs {v x} hx := by
    cases hv : old v with
    | none =>
      simp only [Wiring.compact, hv, Option.elim_none] at hx
      exact absurd hx List.not_mem_nil
    | some b =>
      simp only [Wiring.compact, hv, Option.elim_some, List.mem_filter] at hx
      obtain ⟨hs, hin⟩ := h.of_outs hx.1
      refine ⟨(congrArg num hs).trans (hold v b hv).2, ?_⟩
      simp only [Wiring.compact, hnum _ hx.2, Option.elim_some, List.mem_filter]
      exact ⟨hin, hs ▸ (hold v b hv).1⟩
  of_ins {v x} hx := by
    cases hv : old v with
    | none =>
      simp only [Wiring.compact, hv, Option.elim_none] at hx
      exact absurd hx List.not_mem_nil
    | some b =>
      simp only [Wiring.compact, hv, Option.elim_some, List.mem_filter] at hx
      obtain ⟨hd, hout⟩ := h.of_ins hx.1
      refine ⟨(congrArg num hd).trans (hold v b hv).2, ?_⟩
      simp only [Wiring.compact, hnum _ hx.2, Option.elim_some, List.mem_filter]
      exact ⟨hout, hd ▸ (hold v b hv).1⟩

/-! Any two inverse families of neighbour lists can be wired. -/

section Naming

variable [DecidableEq V]

/-- Each entry with the number of equal ones ahead of it, on top of `seen`. -/
def ranks (seen : V → ℕ) : List V → List (V × ℕ)
  | [] => []
  | t :: l => (t, seen t) :: ranks (Function.update seen t (seen t + 1)) l

/-- The `k`-th of the edges from `a` to `b` has the number `k`, on either side. -/
def name (out inn : V → List V) : Wiring V (EdgeName V) where
  outs a := (ranks (fun _ => 0) (out a)).map fun r => ⟨a, r.1, r.2⟩
  ins b := (ranks (fun _ => 0) (inn b)).map fun r => ⟨r.1, b, r.2⟩
  src := EdgeName.source
  dst := EdgeName.target

end Naming

end Wiring
