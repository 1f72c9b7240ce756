import Mosura.Cover
import Mosura.Exec
import Mosura.Lib.Paths

/-! A cover holds exactly the points between a definition and its reads. -/

namespace Mosura
namespace Cover

instance : Std.Total spanLe := ⟨fun s t => by unfold spanLe; omega⟩

instance : IsTrans Span spanLe := ⟨fun s t u => by unfold spanLe; omega⟩

/-- The positions in some range of `l`. -/
def Within (l : List Span) (p : ℤ) : Prop := ∃ s ∈ l, s.1 ≤ p ∧ p ≤ s.2

theorem within_cons {l : List Span} {s : Span} {p : ℤ} :
    Within (s :: l) p ↔ (s.1 ≤ p ∧ p ≤ s.2) ∨ Within l p := by
  simp only [Within, List.exists_mem_cons_iff]

theorem within_of_perm {l l' : List Span} (h : l.Perm l') {p : ℤ} : Within l p ↔ Within l' p := by
  unfold Within
  constructor
  · rintro ⟨s, hs, hp⟩
    exact ⟨s, h.mem_iff.mp hs, hp⟩
  · rintro ⟨s, hs, hp⟩
    exact ⟨s, h.mem_iff.mpr hs, hp⟩

/-- A range that starts where the last one ends, or before, is joined to it without a gap. -/
theorem within_joinSpan {merged : List Span} {s : Span} (h : ∀ t ∈ merged.head?, t.1 ≤ s.1) (p : ℤ) :
    Within (joinSpan merged s) p ↔ Within merged p ∨ (s.1 ≤ p ∧ p ≤ s.2) := by
  cases merged with
  | nil =>
    change Within [s] p ↔ Within [] p ∨ _
    rw [within_cons, or_comm]
  | cons last rest =>
    have hlast : last.1 ≤ s.1 := h last rfl
    change Within (if s.1 ≤ last.2 + 1 then (last.1, max last.2 s.2) :: rest
      else s :: last :: rest) p ↔ _
    split_ifs with hle
    · rw [within_cons, within_cons]
      have hjoin : (last.1 ≤ p ∧ p ≤ max last.2 s.2) ↔
          (last.1 ≤ p ∧ p ≤ last.2) ∨ (s.1 ≤ p ∧ p ≤ s.2) := by omega
      rw [hjoin, or_right_comm]
    · rw [within_cons, or_comm]

theorem joinSpan_head {merged : List Span} {s t : Span} (h : ∀ t ∈ merged.head?, t.1 ≤ s.1)
    (ht : t ∈ (joinSpan merged s).head?) : t.1 ≤ s.1 := by
  cases merged with
  | nil =>
    cases ht
    exact le_rfl
  | cons last rest =>
    have hlast : last.1 ≤ s.1 := h last rfl
    change t ∈ (if s.1 ≤ last.2 + 1 then (last.1, max last.2 s.2) :: rest
      else s :: last :: rest).head? at ht
    split_ifs at ht
    · cases ht
      exact hlast
    · cases ht
      exact le_rfl

theorem within_foldl_joinSpan {l merged : List Span} (hl : l.Pairwise spanLe)
    (h : ∀ s ∈ l, ∀ t ∈ merged.head?, t.1 ≤ s.1) (p : ℤ) :
    Within (l.foldl joinSpan merged) p ↔ Within merged p ∨ Within l p := by
  induction l generalizing merged with
  | nil =>
    have hnone : ¬Within [] p := fun ⟨_, hs, _⟩ => absurd hs List.not_mem_nil
    simp only [List.foldl_nil, hnone, or_false]
  | cons s l ih =>
    obtain ⟨hs, hl'⟩ := List.pairwise_cons.mp hl
    have hhead := h s List.mem_cons_self
    have hnext : ∀ u ∈ l, ∀ t ∈ (joinSpan merged s).head?, t.1 ≤ u.1 := by
      intro u hu t ht
      have hsu : s.1 ≤ u.1 := (hs u hu).elim le_of_lt fun h => h.1.le
      exact (joinSpan_head hhead ht).trans hsu
    rw [List.foldl_cons, ih hl' hnext, within_joinSpan hhead, within_cons, or_assoc]

variable {c : Cover} {block : ℕ} {lo hi : ℤ}

theorem containsPoint_iff {b : ℕ} {p : ℤ} :
    c.containsPoint b p = true ↔ Within (c.spansOf b) p := by
  unfold containsPoint Within
  simp only [List.any_eq_true, Bool.and_eq_true, decide_eq_true_eq]

theorem containsPoint_empty (b : ℕ) (p : ℤ) : ({} : Cover).containsPoint b p = false := rfl

/-- `extend` adds the points of the new range and no others. -/
theorem containsPoint_extend {b : ℕ} {p : ℤ} : (c.extend block lo hi).containsPoint b p = true ↔
    c.containsPoint b p = true ∨ (b = block ∧ lo ≤ p ∧ p ≤ hi) := by
  rw [containsPoint_iff, containsPoint_iff]
  unfold extend spansOf
  simp only []
  rw [KeyMap.lookup_insert]
  by_cases hb : b = block
  · subst hb
    rw [if_pos rfl, Option.getD_some, within_of_perm (List.reverse_perm _),
      within_foldl_joinSpan (List.pairwise_insertionSort _ _) (fun _ _ _ ht => by cases ht),
      within_of_perm (List.perm_insertionSort _ _), within_of_perm List.perm_append_comm,
      List.singleton_append, within_cons]
    unfold Within
    simp only [List.not_mem_nil, false_and, exists_false, false_or, true_and]
    exact or_comm
  · rw [if_neg hb]
    simp only [hb, false_and, or_false]

theorem blockRange_extend (b : ℕ) : (c.extend block lo hi).blockRange b =
    if b = block then some (min ((c.blockRange block).getD (i32Max, i32Min)).1 lo,
      max ((c.blockRange block).getD (i32Max, i32Min)).2 hi) else c.blockRange b := by
  unfold extend blockRange
  simp only []
  rw [KeyMap.lookup_insert]

/-- The hull of a block contains all points of the block and ends at two of them. -/
structure Hulled (c : Cover) : Prop where
  within : ∀ b p, c.containsPoint b p = true → ∃ t, c.blockRange b = some t ∧ t.1 ≤ p ∧ p ≤ t.2
  ends : ∀ b t, c.blockRange b = some t →
    c.containsPoint b t.1 = true ∧ c.containsPoint b t.2 = true

theorem hulled_empty : Hulled {} := ⟨fun _ _ h => (by cases h), fun _ _ h => (by cases h)⟩

theorem Hulled.extend (h : Hulled c) (hle : lo ≤ hi) (hmin : 0 ≤ lo) (hmax : hi ≤ i32Max) :
    Hulled (c.extend block lo hi) := by
  have hrange : i32Min ≤ 0 := by decide
  constructor
  · intro b p hp
    rw [blockRange_extend]
    rcases containsPoint_extend.mp hp with hp | ⟨rfl, hlo, hhi⟩
    · obtain ⟨t, ht, h₁, h₂⟩ := h.within b p hp
      by_cases hb : b = block
      · subst hb
        rw [if_pos rfl, ht, Option.getD_some]
        exact ⟨_, rfl, (min_le_left _ _).trans h₁, h₂.trans (le_max_left _ _)⟩
      · rw [if_neg hb]
        exact ⟨t, ht, h₁, h₂⟩
    · rw [if_pos rfl]
      exact ⟨_, rfl, (min_le_right _ _).trans hlo, hhi.trans (le_max_right _ _)⟩
  · intro b t ht
    rw [blockRange_extend] at ht
    rw [containsPoint_extend, containsPoint_extend]
    by_cases hb : b = block
    · subst hb
      rw [if_pos rfl, Option.some.injEq] at ht
      subst ht
      cases hold : c.blockRange b with
      | none =>
        -- the first range of the block: it is its own hull
        rw [Option.getD_none, min_eq_right (hle.trans hmax), max_eq_right (by omega)]
        exact ⟨.inr ⟨rfl, le_rfl, hle⟩, .inr ⟨rfl, hle, le_rfl⟩⟩
      | some t =>
        obtain ⟨h₁, h₂⟩ := h.ends b t hold
        rw [Option.getD_some]
        constructor
        · rcases min_choice t.1 lo with he | he
          · exact .inl (he.symm ▸ h₁)
          · exact .inr ⟨rfl, he.ge, he.le.trans hle⟩
        · rcases max_choice t.2 hi with he | he
          · exact .inl (he.symm ▸ h₂)
          · exact .inr ⟨rfl, hle.trans he.ge, he.le⟩
    · rw [if_neg hb] at ht
      obtain ⟨h₁, h₂⟩ := h.ends b t ht
      exact ⟨.inl h₁, .inl h₂⟩

theorem mem_of_lookup {α : Type*} {k : ℕ} {a : α} {l : List (ℕ × α)}
    (h : KeyMap.lookup k l = some a) : (k, a) ∈ l := by
  obtain ⟨e, he, rfl⟩ := Option.map_eq_some_iff.mp h
  have hk : e.1 = k := by simpa using List.find?_some he
  rw [← hk]
  exact List.mem_of_find?_eq_some he

/-- Two covers with a common point intersect. -/
theorem intersects_of_common {c' : Cover} (h : Hulled c) (h' : Hulled c') {b : ℕ} {p : ℤ}
    (hp : c.containsPoint b p = true) (hp' : c'.containsPoint b p = true) :
    c.intersects c' = true := by
  obtain ⟨t, ht, h₁, h₂⟩ := h.within b p hp
  obtain ⟨t', ht', h₁', h₂'⟩ := h'.within b p hp'
  unfold intersects
  rw [List.any_eq_true]
  refine ⟨(b, t), mem_of_lookup ht, ?_⟩
  rw [ht', Option.any_some, Bool.and_eq_true, decide_eq_true_eq, decide_eq_true_eq]
  exact ⟨h₁.trans h₂', h₁'.trans h₂⟩

end Cover

namespace Funcdata

open Paths

variable (f : Funcdata)

/-- `op` is op `i` of block `b`. -/
def At (op : OpId) (b i : ℕ) : Prop := (f.block b).ops[i]? = some op

/-- The op at whose place `op` counts: an INDIRECT counts at the op it guards, if that is in a
block. -/
def site (op : OpId) : OpId :=
  if (f.op op).opcode = .indirect then
    ((f.op op).guardedOp.filter fun g => decide (g ∈ f.allOps)).getD op
  else op

/-- Control passes from a point to the next: within a block, or along an edge. -/
inductive Step : Point → Point → Prop
  | next {b : ℕ} {p : ℤ} : b < f.numBlocks → 0 ≤ p → p < f.exitPos b → Step (b, p) (b, p + 1)
  | edge {b c : ℕ} : b ∈ (f.block c).inEdges → Step (b, f.exitPos b) (c, 0)

/-- `v` is defined at a point: where its op writes it, an input at the entry of the function. -/
inductive DefPoint (v : VarnodeId) : Point → Prop
  | write {op : OpId} {b i : ℕ} : (f.vn v).written = true → (f.vn v).defOp = some op →
      f.At (f.site op) b i → DefPoint v (b, 2 * i + 2)
  | input : (f.vn v).written = false → (f.vn v).input = true → DefPoint v (0, 0)

/-- `v` is read at a point: at the op that reads it, by a MULTIEQUAL at the exit of the
predecessor. -/
inductive ReadPoint (v : VarnodeId) : Point → Prop
  | op {u : OpId} {b i : ℕ} : v ∈ (f.op u).inrefs → (f.op u).opcode ≠ .multiequal →
      f.At (f.site u) b i → ReadPoint v (b, 2 * i + 1)
  | phi {u : OpId} {b i slot p : ℕ} : (f.op u).opcode = .multiequal → f.At u b i →
      (f.op u).inrefs[slot]? = some v → (f.block b).inEdges[slot]? = some p →
      ReadPoint v (p, f.exitPos p)

/-- `l` lists the points of an execution path from the definition of `v` to a read of the value it
defined: a written `v` is not defined again on the way. -/
def DefToRead (v : VarnodeId) (l : List Point) : Prop :=
  ∃ d r, f.DefPoint v d ∧ f.ReadPoint v r ∧ Path f.Step d r l ∧
    ((f.vn v).written = true → d ∉ l.tail)

/-- A function in SSA form over the graph `build_cfg` makes: the entry block has no in-edge, all
blocks are reached from it, an op is in one place, the op that defines a written varnode is in a
block, `descend` lists the readers, and no read is reached but through the definition. The positions
fit the `i32` they are kept in. -/
structure SsaFunction : Prop where
  entry : (f.block 0).inEdges = []
  edges : ∀ b c, b ∈ (f.block c).inEdges → b < f.numBlocks
  reached : ∀ b < f.numBlocks, Relation.ReflTransGen (fun b c => b ∈ (f.block c).inEdges) 0 b
  placed : f.allOps.Nodup
  defined : ∀ v, (f.vn v).written = true → ∃ op ∈ f.allOps, (f.vn v).defOp = some op
  readers : ∀ v op, op ∈ (f.vn v).descend ↔ v ∈ (f.op op).inrefs
  strict : ∀ v d r l, (f.vn v).written = true → f.DefPoint v d → f.ReadPoint v r →
    Path f.Step (0, 0) r l → d ∈ l
  fits : ∀ b, f.exitPos b ≤ Cover.i32Max

variable {f}

theorem at_iff {op : OpId} {b i : ℕ} :
    f.At op b i ↔ ∃ bl, f.blocks[b]? = some bl ∧ bl.ops[i]? = some op := by
  unfold At block
  rw [List.getD_eq_getElem?_getD]
  cases f.blocks[b]? with
  | none =>
    simp only [Option.getD_none, reduceCtorEq, false_and, exists_false, iff_false]
    exact fun h => by cases h
  | some bl => simp only [Option.getD_some, Option.some.injEq, exists_eq_left']

theorem At.lt {op : OpId} {b i : ℕ} (h : f.At op b i) : b < f.numBlocks := by
  obtain ⟨bl, hb, _⟩ := at_iff.mp h
  exact (List.getElem?_eq_some_iff.mp hb).1

theorem At.pos_lt {op : OpId} {b i : ℕ} (h : f.At op b i) : i < (f.block b).ops.length :=
  (List.getElem?_eq_some_iff.mp h).1

theorem mem_opPlaces {op : OpId} {b i : ℕ} : (op, b, i) ∈ f.opPlaces ↔ f.At op b i := by
  rw [at_iff]
  unfold opPlaces
  simp only [List.mem_flatMap, List.mem_map, Prod.exists, Prod.mk.injEq,
    List.mk_mem_zipIdx_iff_getElem?]
  constructor
  · rintro ⟨bl, b', hb, op', i', hi, rfl, rfl, rfl⟩
    exact ⟨bl, hb, hi⟩
  · rintro ⟨bl, hb, hi⟩
    exact ⟨bl, b, hb, op, i, hi, rfl, rfl, rfl⟩

theorem opPlaces_ops : f.opPlaces.map Prod.fst = f.allOps := by
  unfold opPlaces allOps
  rw [List.map_flatMap]
  simp only [List.map_map, Function.comp_def]
  have hops (l : List OpId) : l.zipIdx.map (fun o => o.1) = l := List.zipIdx_map_fst 0 l
  simp only [hops]
  generalize f.blocks = l
  rw [← List.flatMap_map (f := Prod.fst) (g := BlockBasic.ops), List.zipIdx_map_fst]

theorem mem_allOps_iff {op : OpId} : op ∈ f.allOps ↔ ∃ b i, f.At op b i := by
  rw [← opPlaces_ops, List.mem_map]
  constructor
  · rintro ⟨⟨o, b, i⟩, h, rfl⟩
    exact ⟨b, i, mem_opPlaces.mp h⟩
  · rintro ⟨b, i, h⟩
    exact ⟨_, mem_opPlaces.mpr h, rfl⟩

theorem foldl_update_eq_some {α β : Type*} [DecidableEq α] {l : List (α × β)}
    (hl : (l.map Prod.fst).Nodup) (m : α → Option β) (k : α) (x : β) :
    l.foldl (fun (m : α → Option β) e => Function.update m e.1 (some e.2)) m k = some x ↔
      (k, x) ∈ l ∨ (k ∉ l.map Prod.fst ∧ m k = some x) := by
  induction l generalizing m with
  | nil => simp only [List.foldl_nil, List.not_mem_nil, List.map_nil, not_false_eq_true, true_and,
      false_or]
  | cons e l ih =>
    rw [List.map_cons, List.nodup_cons] at hl
    rw [List.foldl_cons, ih hl.2, List.mem_cons, List.map_cons, List.mem_cons, not_or]
    by_cases hk : k = e.1
    · subst hk
      have hnot : ∀ y, (e.1, y) ∉ l := fun y hy => hl.1 (List.mem_map.mpr ⟨_, hy, rfl⟩)
      rw [Function.update_self]
      constructor
      · rintro (h | ⟨_, h⟩)
        · exact absurd h (hnot x)
        · cases h
          exact .inl (.inl rfl)
      · rintro ((h | h) | ⟨⟨h, _⟩, _⟩)
        · refine .inr ⟨hl.1, ?_⟩
          rw [← h]
        · exact absurd h (hnot x)
        · exact absurd rfl h
    · rw [Function.update_of_ne hk]
      have hne : (k, x) ≠ e := fun h => hk (congrArg Prod.fst h)
      simp only [hne, hk, false_or, not_false_eq_true, true_and]

theorem opPositions_iff (h : f.allOps.Nodup) {op : OpId} {b i : ℕ} :
    f.opPositions op = some (b, i) ↔ f.At op b i := by
  unfold opPositions
  rw [foldl_update_eq_some (by rw [opPlaces_ops]; exact h), mem_opPlaces]
  simp only [reduceCtorEq, and_false, or_false]

theorem opPositions_eq_none (h : f.allOps.Nodup) {op : OpId} :
    f.opPositions op = none ↔ op ∉ f.allOps := by
  rw [mem_allOps_iff, Option.eq_none_iff_forall_ne_some]
  constructor
  · rintro hn ⟨b, i, hat⟩
    exact hn _ ((opPositions_iff h).mpr hat)
  · rintro hn ⟨b, i⟩ he
    exact hn ⟨b, i, (opPositions_iff h).mp he⟩

/-- `op_index` is the place of the op at which `op` counts. -/
theorem opIndex_eq (h : f.allOps.Nodup) (op : OpId) :
    f.opIndex op f.opPositions = f.opPositions (f.site op) := by
  unfold opIndex site
  split_ifs with hind
  · cases hg : (f.op op).guardedOp with
    | none => rfl
    | some g =>
      rw [Option.bind_some]
      by_cases hm : g ∈ f.allOps
      · rw [Option.filter_some_pos (by simpa using hm), Option.getD_some]
        cases hp : f.opPositions g with
        | none => exact absurd hm ((opPositions_eq_none h).mp hp)
        | some p => rfl
      · rw [Option.filter_some_neg (by simpa using hm), Option.getD_none,
          (opPositions_eq_none h).mpr hm, Option.none_or]
  · rfl

theorem opIndex_iff (h : f.allOps.Nodup) {op : OpId} {b i : ℕ} :
    f.opIndex op f.opPositions = some (b, i) ↔ f.At (f.site op) b i := by
  rw [opIndex_eq h, opPositions_iff h]

theorem site_of_ne {op : OpId} (h : (f.op op).opcode ≠ .indirect) : f.site op = op := by
  unfold site
  rw [if_neg h]

theorem site_mem {op : OpId} (h : op ∈ f.allOps) : f.site op ∈ f.allOps := by
  unfold site
  split_ifs with hind
  · cases hg : (f.op op).guardedOp.filter fun g => decide (g ∈ f.allOps) with
    | none => exact h
    | some g =>
      have hm := (Option.filter_eq_some_iff.mp hg).2
      rw [Option.getD_some]
      exact of_decide_eq_true hm
  · exact h

section Spans

variable {c : Cover} {v : VarnodeId} {d : Point}

/-- The range reader `u` of `v` adds, from the definition of `v` or the entry of the block. -/
def ReadSpan (f : Funcdata) (d : Point) (u : OpId) (x : Point) : Prop :=
  ∃ b i : ℕ, f.opIndex u f.opPositions = some (b, i) ∧ (f.op u).opcode ≠ .multiequal ∧
    x.1 = b ∧ (if d.1 = b ∧ d.2 ≤ 2 * i + 1 then d.2 else 0) ≤ x.2 ∧ x.2 ≤ 2 * i + 1

/-- Reader `u` needs `v` at the exit of `p`. -/
def NeedsExit (f : Funcdata) (v : VarnodeId) (d : Point) (u : OpId) (p : BlockId) : Prop :=
  ∃ b i : ℕ, f.opIndex u f.opPositions = some (b, i) ∧
    if (f.op u).opcode = .multiequal then p ∈ f.phiPreds v u b
    else ¬(d.1 = b ∧ d.2 ≤ 2 * i + 1) ∧ p ∈ (f.block b).inEdges

/-- The range of a block with `v` live at its exit. -/
def ExitSpan (f : Funcdata) (d : Point) (b : BlockId) (x : Point) : Prop :=
  x.1 = b ∧ (if d.1 = b then d.2 else 0) ≤ x.2 ∧ x.2 ≤ f.exitPos b

theorem coverRead_spec (s : Cover × List BlockId) (u : OpId) :
    (∀ x, (f.coverRead v f.opPositions d s u).1.containsPoint x.1 x.2 = true ↔
      s.1.containsPoint x.1 x.2 = true ∨ f.ReadSpan d u x) ∧
    ∀ p, p ∈ (f.coverRead v f.opPositions d s u).2 ↔ p ∈ s.2 ∨ f.NeedsExit v d u p := by
  unfold coverRead ReadSpan NeedsExit
  cases hu : f.opIndex u f.opPositions with
  | none =>
    simp only [reduceCtorEq, false_and, exists_false, or_false, implies_true, and_self]
  | some e =>
    obtain ⟨b, i⟩ := e
    simp only [Option.some.injEq, Prod.mk.injEq, and_assoc, exists_and_left, exists_eq_left']
    by_cases hphi : (f.op u).opcode = .multiequal
    · simp only [hphi, if_true, ne_eq, not_true_eq_false, false_and, or_false, implies_true,
        true_and, List.mem_append, List.mem_reverse]
      exact fun p => or_comm
    · simp only [hphi, if_false, ne_eq, not_false_eq_true, true_and]
      by_cases hdef : d.1 = b ∧ d.2 ≤ 2 * i + 1
      · simp only [hdef, and_self, if_true, not_true_eq_false, false_and, or_false,
          implies_true, and_true]
        exact fun x => Cover.containsPoint_extend
      · simp only [hdef, if_false, not_false_eq_true, true_and, List.mem_append,
          List.mem_reverse]
        exact ⟨fun x => Cover.containsPoint_extend, fun p => or_comm⟩

theorem coverReads_spec (us : List OpId) (s : Cover × List BlockId) :
    (∀ x, (us.foldl (f.coverRead v f.opPositions d) s).1.containsPoint x.1 x.2 = true ↔
      s.1.containsPoint x.1 x.2 = true ∨ ∃ u ∈ us, f.ReadSpan d u x) ∧
    ∀ p, p ∈ (us.foldl (f.coverRead v f.opPositions d) s).2 ↔
      p ∈ s.2 ∨ ∃ u ∈ us, f.NeedsExit v d u p := by
  induction us generalizing s with
  | nil => simp only [List.foldl_nil, List.not_mem_nil, false_and, exists_false, or_false,
      implies_true, and_self]
  | cons u us ih =>
    obtain ⟨hpoints, hexits⟩ := coverRead_spec (v := v) (d := d) s u
    obtain ⟨hpoints', hexits'⟩ := ih (f.coverRead v f.opPositions d s u)
    rw [List.foldl_cons]
    refine ⟨fun x => ?_, fun p => ?_⟩
    · rw [hpoints', hpoints, List.exists_mem_cons_iff, or_assoc]
    · rw [hexits', hexits, List.exists_mem_cons_iff, or_assoc]

/-- The in-edges of the blocks still unseen pay for what is pushed. -/
def unseenEdges (f : Funcdata) (s : List BlockId × Cover) : ℕ :=
  ∑ b ∈ Finset.range f.numBlocks with b ∉ s.1, (f.block b).inEdges.length

theorem unseenEdges_coverExit (b : BlockId) (s : List BlockId × Cover) :
    f.unseenEdges (f.coverExit d b s).1 + (f.coverExit d b s).2.length ≤ f.unseenEdges s := by
  unfold coverExit
  split_ifs with hseen hd
  · exact le_rfl
  all_goals
    have hsub : (Finset.range f.numBlocks).filter (· ∉ b :: s.1) ⊆
        (Finset.range f.numBlocks).filter (· ∉ s.1) := by
      intro x hx
      rw [Finset.mem_filter, List.mem_cons, not_or] at hx
      exact Finset.mem_filter.mpr ⟨hx.1, hx.2.2⟩
  · exact Finset.sum_le_sum_of_subset hsub
  · unfold unseenEdges
    rw [List.length_reverse]
    have hlen := List.length_filter_le (fun p => !decide (p ∈ b :: s.1)) (f.block b).inEdges
    by_cases hb : b < f.numBlocks
    · have hmem : b ∈ (Finset.range f.numBlocks).filter (· ∉ s.1) :=
        Finset.mem_filter.mpr ⟨Finset.mem_range.mpr hb, hseen⟩
      rw [← Finset.add_sum_erase _ _ hmem, add_comm]
      refine add_le_add hlen (Finset.sum_le_sum_of_subset fun x hx => ?_)
      have hx' := (Finset.mem_filter.mp hx).2
      rw [List.mem_cons, not_or] at hx'
      exact Finset.mem_erase.mpr ⟨hx'.1, hsub hx⟩
    · have hnone : (f.block b).inEdges = [] := by
        unfold block
        rw [List.getD_eq_default _ _ (not_lt.mp hb)]
        rfl
      rw [hnone, List.filter_nil, List.length_nil, add_zero]
      exact Finset.sum_le_sum_of_subset hsub

theorem unseenEdges_start (c : Cover) :
    f.unseenEdges ([], c) = (f.blocks.map fun b => b.inEdges.length).sum := by
  unfold unseenEdges
  simp only [List.not_mem_nil, not_false_eq_true, Finset.filter_true]
  unfold numBlocks block
  induction f.blocks with
  | nil => rfl
  | cons bl l ih =>
    rw [List.length_cons, Finset.sum_range_succ', List.map_cons, List.sum_cons, add_comm, ← ih]
    rfl

/-- The points after any number of turns: those before, and the ranges of the blocks seen. -/
theorem coverExits_points (c : Cover) (l : List BlockId) (n : ℕ) (x : Point) :
    ((Worklist.step (f.coverExit d))^[n] (([], c), l)).1.2.containsPoint x.1 x.2 = true ↔
      c.containsPoint x.1 x.2 = true ∨
        ∃ b ∈ ((Worklist.step (f.coverExit d))^[n] (([], c), l)).1.1, f.ExitSpan d b x := by
  refine Worklist.invariant_run (f.coverExit d) (fun s => s.2.containsPoint x.1 x.2 = true ↔
    c.containsPoint x.1 x.2 = true ∨ ∃ b ∈ s.1, f.ExitSpan d b x) ?_ n (([], c), l) ?_
  · intro b s hs
    unfold coverExit
    by_cases hseen : b ∈ s.1
    · rw [if_pos hseen]
      exact hs
    · rw [if_neg hseen]
      change (s.2.extend b (if d.1 = b then d.2 else 0) (f.exitPos b)).containsPoint x.1 x.2 = true ↔
        c.containsPoint x.1 x.2 = true ∨ ∃ b' ∈ b :: s.1, f.ExitSpan d b' x
      rw [Cover.containsPoint_extend, List.exists_mem_cons_iff, hs, or_assoc,
        or_comm (a := f.ExitSpan d b x)]
      exact Iff.rfl
  · simp only [List.not_mem_nil, false_and, exists_false, or_false]

/-- `j` has been seen, or neither was it on the stack nor is it a predecessor of a block seen. -/
def SeenOrUnneeded (f : Funcdata) (d : Point) (l : List BlockId) (s : List BlockId × Cover)
    (j : BlockId) : Prop :=
  j ∈ s.1 ∨ (j ∉ l ∧ ∀ b ∈ s.1, d.1 ≠ b → j ∉ (f.block b).inEdges)

theorem seenOrUnneeded_step {l : List BlockId} (b : BlockId) (s : List BlockId × Cover)
    (j : BlockId) (hj : SeenOrUnneeded f d l s j ∨ j = b) :
    SeenOrUnneeded f d l (f.coverExit d b s).1 j ∨ j ∈ (f.coverExit d b s).2 := by
  unfold coverExit
  split_ifs with hseen hd
  · rcases hj with hj | rfl
    · exact .inl hj
    · exact .inl (.inl hseen)
  · rcases hj with (hj | ⟨hl, hj⟩) | rfl
    · exact .inl (.inl (List.mem_cons_of_mem _ hj))
    · refine .inl (.inr ⟨hl, fun b' hb' hne => ?_⟩)
      rcases List.mem_cons.mp hb' with rfl | hb'
      · exact absurd hd hne
      · exact hj b' hb' hne
    · exact .inl (.inl List.mem_cons_self)
  · by_cases hmem : j ∈ b :: s.1
    · exact .inl (.inl hmem)
    · by_cases hpred : j ∈ (f.block b).inEdges
      · refine .inr (List.mem_reverse.mpr (List.mem_filter.mpr ⟨hpred, ?_⟩))
        rw [decide_eq_false hmem, Bool.not_false]
      · rcases hj with (hj | ⟨hl, hj⟩) | rfl
        · exact absurd (List.mem_cons_of_mem _ hj) hmem
        · refine .inl (.inr ⟨hl, fun b' hb' hne => ?_⟩)
          rcases List.mem_cons.mp hb' with rfl | hb'
          · exact hpred
          · exact hj b' hb' hne
        · exact absurd List.mem_cons_self hmem

/-- When the stack is empty, all blocks that were on it and all predecessors of the blocks seen, but
the block of the definition, have been seen. -/
theorem coverExits_closed {c : Cover} {l : List BlockId} {n : ℕ}
    (hend : ((Worklist.step (f.coverExit d))^[n] (([], c), l)).2 = []) (p : BlockId)
    (hp : p ∈ l ∨ ∃ b ∈ ((Worklist.step (f.coverExit d))^[n] (([], c), l)).1.1, d.1 ≠ b ∧
      p ∈ (f.block b).inEdges) :
    p ∈ ((Worklist.step (f.coverExit d))^[n] (([], c), l)).1.1 := by
  have hrun : SeenOrUnneeded f d l ((Worklist.step (f.coverExit d))^[n] (([], c), l)).1 p ∨
      p ∈ ((Worklist.step (f.coverExit d))^[n] (([], c), l)).2 := by
    refine Worklist.stable_run (f.coverExit d) (fun _ => True) (fun _ _ h => h)
      (fun b s j _ hj => seenOrUnneeded_step b s j hj) n (([], c), l) trivial (fun j => ?_) p
    by_cases hj : j ∈ l
    · exact .inr hj
    · exact .inl (.inr ⟨hj, fun _ hb => absurd hb List.not_mem_nil⟩)
  rw [hend] at hrun
  refine (hrun.resolve_right List.not_mem_nil).resolve_right fun ⟨hl, hb⟩ => ?_
  rcases hp with hp | ⟨b, hs, hd, hp⟩
  · exact hl hp
  · exact hb b hs hd hp

/-- What holds of the blocks on the stack, and passes from a block to its predecessors, holds of all
blocks seen. -/
theorem coverExits_sound {P : BlockId → Prop} {c : Cover} {l : List BlockId} {n : ℕ}
    (hl : ∀ b ∈ l, P b) (hpred : ∀ b, d.1 ≠ b → P b → ∀ p ∈ (f.block b).inEdges, P p) :
    ∀ b ∈ ((Worklist.step (f.coverExit d))^[n] (([], c), l)).1.1, P b := by
  refine Worklist.pending_run (f.coverExit d) (fun s => ∀ b ∈ s.1, P b) P ?_ n (([], c), l)
    (fun _ hb => absurd hb List.not_mem_nil) hl
  intro b s hb hs
  unfold coverExit
  split_ifs with hseen hd
  · exact ⟨hs, fun _ hj => absurd hj List.not_mem_nil⟩
  · refine ⟨fun b' hb' => ?_, fun _ hj => absurd hj List.not_mem_nil⟩
    rcases List.mem_cons.mp hb' with rfl | hb'
    · exact hb
    · exact hs b' hb'
  · refine ⟨fun b' hb' => ?_, fun j hj => ?_⟩
    · rcases List.mem_cons.mp hb' with rfl | hb'
      · exact hb
      · exact hs b' hb'
    · exact hpred b hd hb j (List.mem_filter.mp (List.mem_reverse.mp hj)).1

theorem exitPos_nonneg (b : BlockId) : 0 ≤ f.exitPos b := by
  unfold exitPos
  omega

theorem coverRead_hulled (hf : f.SsaFunction) (h0 : 0 ≤ d.2) {s : Cover × List BlockId}
    (h : s.1.Hulled) (u : OpId) : (f.coverRead v f.opPositions d s u).1.Hulled := by
  unfold coverRead
  cases hu : f.opIndex u f.opPositions with
  | none => exact h
  | some e =>
    obtain ⟨b, i⟩ := e
    have hat := (opIndex_iff hf.placed).mp hu
    have hlt := hat.pos_lt
    have hfit := hf.fits b
    unfold exitPos at hfit
    simp only []
    split_ifs with hphi hdef
    · exact h
    · exact h.extend hdef.2 h0 (by omega)
    · exact h.extend (by omega) le_rfl (by omega)

theorem coverReads_hulled (hf : f.SsaFunction) (h0 : 0 ≤ d.2) (us : List OpId)
    {s : Cover × List BlockId} (h : s.1.Hulled) :
    (us.foldl (f.coverRead v f.opPositions d) s).1.Hulled := by
  induction us generalizing s with
  | nil => exact h
  | cons u us ih => exact ih (coverRead_hulled hf h0 h u)

theorem coverExits_hulled (hf : f.SsaFunction) (h0 : 0 ≤ d.2) (hd : d.2 ≤ f.exitPos d.1) {c : Cover}
    {l : List BlockId} (n : ℕ) (h : c.Hulled) :
    ((Worklist.step (f.coverExit d))^[n] (([], c), l)).1.2.Hulled := by
  refine Worklist.invariant_run (f.coverExit d) (fun s => s.2.Hulled) ?_ n (([], c), l) h
  intro b s hs
  unfold coverExit
  by_cases hseen : b ∈ s.1
  · rw [if_pos hseen]
    exact hs
  · rw [if_neg hseen]
    refine hs.extend ?_ ?_ (hf.fits b)
    · split_ifs with hb
      · exact hb ▸ hd
      · exact exitPos_nonneg b
    · split_ifs
      · exact h0
      · exact le_rfl

/-- What `cover_of` returns for a value that comes alive at `d`: the ranges of its readers, and of the
blocks `seen`, the least set closed under what is needed. -/
structure CoverShape (f : Funcdata) (v : VarnodeId) (d : Point) (c : Cover)
    (seen : List BlockId) : Prop where
  points : ∀ x, c.containsPoint x.1 x.2 = true ↔
    x = d ∨ (∃ u ∈ f.readers v, f.ReadSpan d u x) ∨ ∃ b ∈ seen, f.ExitSpan d b x
  needed : ∀ u ∈ f.readers v, ∀ p, f.NeedsExit v d u p → p ∈ seen
  preds : ∀ b ∈ seen, d.1 ≠ b → ∀ p ∈ (f.block b).inEdges, p ∈ seen
  least : ∀ P : BlockId → Prop, (∀ u ∈ f.readers v, ∀ p, f.NeedsExit v d u p → P p) →
    (∀ b, d.1 ≠ b → P b → ∀ p ∈ (f.block b).inEdges, P p) → ∀ b ∈ seen, P b
  hulled : c.Hulled

theorem coverOf_shape (hf : f.SsaFunction) (hv : (f.vn v).isFree = false)
    (hsite : f.defSite v f.opPositions = some d) (h0 : 0 ≤ d.2) (hd : d.2 ≤ f.exitPos d.1) :
    ∃ c seen, f.coverOf v f.opPositions = some c ∧ CoverShape f v d c seen := by
  let s := (f.readers v).foldl (f.coverRead v f.opPositions d) (({} : Cover).extend d.1 d.2 d.2, [])
  let r := (Worklist.step (f.coverExit d))^[f.coverTurns s.2.length] (([], s.1), s.2)
  obtain ⟨hpoints, hexits⟩ := coverReads_spec (v := v) (d := d) (f.readers v)
    (({} : Cover).extend d.1 d.2 d.2, [])
  have hend : r.2 = [] := by
    refine Worklist.drained (f.coverExit d) f.unseenEdges unseenEdges_coverExit _ (([], s.1), s.2) ?_
    rw [unseenEdges_start]
    exact le_rfl
  have hstart : (({} : Cover).extend d.1 d.2 d.2).Hulled :=
    Cover.hulled_empty.extend le_rfl h0 (hd.trans (hf.fits d.1))
  refine ⟨r.1.2, r.1.1, ?_, ?_, ?_, ?_, ?_, ?_⟩
  · unfold coverOf
    rw [hv, hsite]
    change (if r.2 = [] then some r.1.2 else none) = some r.1.2
    rw [if_pos hend]
  · intro x
    have hx : (x.1 = d.1 ∧ d.2 ≤ x.2 ∧ x.2 ≤ d.2) ↔ x = d := by
      rw [Prod.ext_iff]
      constructor
      · rintro ⟨h₁, h₂, h₃⟩
        exact ⟨h₁, le_antisymm h₃ h₂⟩
      · rintro ⟨h₁, h₂⟩
        exact ⟨h₁, h₂.ge, h₂.le⟩
    rw [coverExits_points, hpoints, Cover.containsPoint_extend, Cover.containsPoint_empty, hx,
      or_assoc]
    simp only [Bool.false_eq_true, false_or]
    exact Iff.rfl
  · intro u hu p hp
    exact coverExits_closed hend p (.inl ((hexits p).mpr (.inr ⟨u, hu, hp⟩)))
  · intro b hb hne p hp
    exact coverExits_closed hend p (.inr ⟨b, hb, hne, hp⟩)
  · intro P hP hpred
    refine coverExits_sound (fun b hb => ?_) hpred
    rcases (hexits b).mp hb with hb | ⟨u, hu, hb⟩
    · exact absurd hb List.not_mem_nil
    · exact hP u hu b hb
  · exact coverExits_hulled hf h0 hd _ (coverReads_hulled hf h0 _ hstart)

end Spans

section Life

variable {c : Cover} {v : VarnodeId} {d : Point} {seen : List BlockId} {R : Set Point}

theorem mem_readers (hf : f.SsaFunction) {u : OpId} :
    u ∈ f.readers v ↔ v ∈ (f.op u).inrefs := by
  unfold readers
  rw [List.mem_dedup, List.mem_insertionSort, hf.readers]

theorem mem_phiPreds {u : OpId} {b : BlockId} {p : BlockId} : p ∈ f.phiPreds v u b ↔
    ∃ slot : ℕ, (f.op u).inrefs[slot]? = some v ∧ (f.block b).inEdges[slot]? = some p := by
  unfold phiPreds
  rw [List.mem_filterMap]
  constructor
  · rintro ⟨e, he, hp⟩
    rw [Option.ite_none_right_eq_some, Option.some.injEq] at hp
    obtain ⟨slot, hslot⟩ := List.mem_iff_getElem?.mp he
    obtain ⟨hv, hb⟩ := List.getElem?_zip_eq_some.mp hslot
    exact ⟨slot, hp.1 ▸ hv, hp.2 ▸ hb⟩
  · rintro ⟨slot, hv, hb⟩
    refine ⟨(v, p), List.mem_iff_getElem?.mpr ⟨slot, List.getElem?_zip_eq_some.mpr ⟨hv, hb⟩⟩, ?_⟩
    rw [if_pos rfl]

theorem At.unique (hf : f.SsaFunction) {op : OpId} {b i b' i' : ℕ} (h : f.At op b i)
    (h' : f.At op b' i') : b = b' ∧ i = i' := by
  have he := ((opPositions_iff hf.placed).mpr h).symm.trans ((opPositions_iff hf.placed).mpr h')
  simpa using he

theorem DefPoint.unique (hf : f.SsaFunction) {d' : Point} (h : f.DefPoint v d)
    (h' : f.DefPoint v d') : d = d' := by
  cases h with
  | write hw ho hat =>
    cases h' with
    | write _ ho' hat' =>
      rw [ho, Option.some.injEq] at ho'
      subst ho'
      obtain ⟨rfl, rfl⟩ := hat.unique hf hat'
      rfl
    | input hw' => exact absurd (hw.symm.trans hw') (by decide)
  | input hw =>
    cases h' with
    | write hw' => exact absurd (hw.symm.trans hw') (by decide)
    | input => rfl

theorem DefPoint.bounds (h : f.DefPoint v d) : 0 ≤ d.2 ∧ d.2 ≤ f.exitPos d.1 := by
  cases h with
  | write _ _ hat =>
    have hlt := hat.pos_lt
    unfold exitPos
    constructor
    · positivity
    · simp only []
      omega
  | input => exact ⟨le_rfl, exitPos_nonneg 0⟩

/-- Where `cover_of` sees `v` come alive is where it is defined. -/
theorem exists_defSite (hf : f.SsaFunction) (hv : (f.vn v).isFree = false) :
    ∃ d, f.defSite v f.opPositions = some d ∧ f.DefPoint v d := by
  unfold defSite
  cases hw : (f.vn v).written with
  | true =>
    obtain ⟨op, hop, hdef⟩ := hf.defined v hw
    obtain ⟨b, i, hat⟩ := mem_allOps_iff.mp (site_mem hop)
    refine ⟨(b, 2 * i + 2), ?_, .write hw hdef hat⟩
    rw [hdef, if_pos rfl]
    change (f.opIndex op f.opPositions).bind _ = _
    rw [(opIndex_iff hf.placed).mpr hat]
    rfl
  | false =>
    refine ⟨(0, 0), rfl, .input hw ?_⟩
    unfold Varnode.isFree at hv
    rw [hw] at hv
    simpa using hv

/-- A range of a block is live where its end is, if it does not contain the definition but at its
start. -/
theorem live_back {b : ℕ} {p q : ℤ} (hb : b < f.numBlocks) (hq : q ≤ f.exitPos b) (hp : 0 ≤ p)
    (hpq : p ≤ q) (hne : ∀ t, p < t → t ≤ q → (b, t) ≠ d) (h : Live f.Step d R (b, q)) :
    Live f.Step d R (b, p) := by
  obtain ⟨n, rfl⟩ := Int.le.dest hpq
  induction n with
  | zero => simpa using h
  | succ n ih =>
    have hlast : Live f.Step d R (b, p + n) := by
      refine .of_step (.next hb (by omega) (by push_cast at hq; omega)) ?_ ?_
      · exact hne _ (by omega) (by push_cast; omega)
      · rw [add_assoc]
        exact_mod_cast h
    exact ih (by push_cast at hq; omega) (by omega)
      (fun t ht ht' => hne t ht (by push_cast; omega)) hlast

/-- The place of a reader that is no MULTIEQUAL is a read of `v`, of a MULTIEQUAL the exits it
needs. -/
theorem readPoint_cases (hf : f.SsaFunction) {r : Point} (h : f.ReadPoint v r) :
    (∃ u ∈ f.readers v, ∃ b i : ℕ, f.opIndex u f.opPositions = some (b, i) ∧
      (f.op u).opcode ≠ .multiequal ∧ r = (b, 2 * (i : ℤ) + 1)) ∨
    ∃ u ∈ f.readers v, ∃ p, f.NeedsExit v d u p ∧ r = (p, f.exitPos p) := by
  cases h with
  | op hv hphi hat =>
    exact .inl ⟨_, (mem_readers hf).mpr hv, _, _, (opIndex_iff hf.placed).mpr hat, hphi, rfl⟩
  | @phi u b i slot p hphi hat hv hp =>
    have hsite : f.site u = u := site_of_ne (by rw [hphi]; decide)
    refine .inr ⟨u, (mem_readers hf).mpr (List.mem_of_getElem? hv), p, ⟨b, i, ?_, ?_⟩, rfl⟩
    · rw [opIndex_iff hf.placed, hsite]
      exact hat
    · rw [if_pos hphi]
      exact mem_phiPreds.mpr ⟨slot, hv, hp⟩

/-- All that is live is in the cover. -/
theorem CoverShape.complete (hf : f.SsaFunction) (hs : CoverShape f v d c seen)
    (hd : f.DefPoint v d) {x : Point} (h : Live f.Step d {r | f.ReadPoint v r} x) :
    c.containsPoint x.1 x.2 = true := by
  obtain ⟨h0, hexit⟩ := hd.bounds
  have hlo (b : ℕ) : (if d.1 = b then d.2 else 0) ≤ f.exitPos b := by
    split_ifs with hb
    · exact hb ▸ hexit
    · exact exitPos_nonneg b
  have hspan (b : ℕ) (hb : b ∈ seen) : c.containsPoint b (f.exitPos b) = true :=
    (hs.points (b, f.exitPos b)).mpr (.inr (.inr ⟨b, hb, rfl, hlo b, le_rfl⟩))
  refine h.subset (C := {x | c.containsPoint x.1 x.2 = true}) (fun r hr => ?_) fun a b hab hne hb => ?_
  · rcases readPoint_cases (d := d) hf hr with ⟨u, hu, b, i, hi, hphi, rfl⟩ | ⟨u, hu, p, hp, rfl⟩
    · refine (hs.points (b, 2 * (i : ℤ) + 1)).mpr (.inr (.inl ⟨u, hu, b, i, hi, hphi, rfl, ?_, le_rfl⟩))
      split_ifs with hdef
      · exact hdef.2
      · change (0 : ℤ) ≤ 2 * i + 1
        omega
    · exact hspan p (hs.needed u hu p hp)
  · -- a range that reaches over a step back ends where the value is defined or comes from before
    refine (hs.points a).mpr ?_
    rcases (hs.points b).mp hb with hb | ⟨u, hu, blk, i, hi, hphi, hblk, hle, hge⟩ |
      ⟨blk, hblk, hb, hle, hge⟩
    · exact absurd hb hne
    · cases hab with
      | @next blk' p hlt hnn hend =>
        change blk' = blk at hblk
        subst hblk
        refine .inr (.inl ⟨u, hu, blk', i, hi, hphi, rfl, ?_, by simp only [] at hge ⊢; omega⟩)
        split_ifs at hle ⊢ with hdef
        · rcases hle.lt_or_eq with hlt | heq
          · exact Int.lt_add_one_iff.mp hlt
          · exact absurd (Prod.ext hdef.1.symm heq.symm) hne
        · exact hnn
      | @edge p blk' hedge =>
        change blk' = blk at hblk
        subst hblk
        have hout : ¬(d.1 = blk' ∧ d.2 ≤ 2 * (i : ℤ) + 1) := by
          intro hdef
          rw [if_pos hdef] at hle
          exact hne (Prod.ext hdef.1.symm (le_antisymm h0 hle))
        have hp : p ∈ seen := by
          refine hs.needed u hu p ⟨blk', i, hi, ?_⟩
          rw [if_neg hphi]
          exact ⟨hout, hedge⟩
        exact .inr (.inr ⟨p, hp, rfl, hlo p, le_rfl⟩)
    · cases hab with
      | @next blk' p hlt hnn hend =>
        change blk' = blk at hb
        subst hb
        refine .inr (.inr ⟨blk', hblk, rfl, ?_, by simp only [] at hge ⊢; omega⟩)
        split_ifs at hle ⊢ with hdef
        · rcases hle.lt_or_eq with hlt | heq
          · exact Int.lt_add_one_iff.mp hlt
          · exact absurd (Prod.ext hdef.symm heq.symm) hne
        · exact hnn
      | @edge p blk' hedge =>
        change blk' = blk at hb
        subst hb
        have hout : d.1 ≠ blk' := by
          intro hdef
          rw [if_pos hdef] at hle
          exact hne (Prod.ext hdef.symm (le_antisymm h0 hle))
        exact .inr (.inr ⟨p, hs.preds blk' hblk hout p hedge, rfl, hlo p, le_rfl⟩)

/-- All of the cover but the definition is live. -/
theorem CoverShape.sound (hf : f.SsaFunction) (hs : CoverShape f v d c seen)
    (hd : f.DefPoint v d) {x : Point} (h : c.containsPoint x.1 x.2 = true) :
    x = d ∨ Live f.Step d {r | f.ReadPoint v r} x := by
  obtain ⟨h0, hexit⟩ := hd.bounds
  -- a read at op `i` of `b` is live back to the definition, or to the entry of the block
  have hread : ∀ u ∈ f.readers v, ∀ b i : ℕ, f.opIndex u f.opPositions = some (b, i) →
      (f.op u).opcode ≠ .multiequal → ∀ p : ℤ,
      (if d.1 = b ∧ d.2 ≤ 2 * i + 1 then d.2 else 0) ≤ p → p ≤ 2 * i + 1 →
      Live f.Step d {r | f.ReadPoint v r} (b, p) := by
    intro u hu b i hi hphi p hlo hhi
    have hat := (opIndex_iff hf.placed).mp hi
    have hlt := hat.pos_lt
    have hr : f.ReadPoint v (b, 2 * (i : ℤ) + 1) := .op ((mem_readers hf).mp hu) hphi hat
    refine live_back hat.lt (by unfold exitPos; omega) ?_ hhi (fun t ht ht' he => ?_) (.of_mem hr)
    · split_ifs at hlo
      · exact h0.trans hlo
      · exact hlo
    · subst he
      rw [if_pos ⟨rfl, ht'⟩] at hlo
      exact absurd ht (not_lt.mpr hlo)
  have hblock : ∀ b < f.numBlocks, Live f.Step d {r | f.ReadPoint v r} (b, f.exitPos b) →
      ∀ p : ℤ, (if d.1 = b then d.2 else 0) ≤ p → p ≤ f.exitPos b →
      Live f.Step d {r | f.ReadPoint v r} (b, p) := by
    intro b hb hlive p hlo hhi
    refine live_back hb le_rfl ?_ hhi (fun t ht ht' he => ?_) hlive
    · split_ifs at hlo
      · exact h0.trans hlo
      · exact hlo
    · subst he
      rw [if_pos rfl] at hlo
      exact absurd ht (not_lt.mpr hlo)
  have hseen : ∀ b ∈ seen, b < f.numBlocks ∧
      Live f.Step d {r | f.ReadPoint v r} (b, f.exitPos b) := by
    refine hs.least _ (fun u hu p ⟨b, i, hi, hp⟩ => ?_) fun b hne ⟨hb, hlive⟩ p hp => ?_
    · have hat := (opIndex_iff hf.placed).mp hi
      split_ifs at hp with hphi
      · obtain ⟨slot, hv, hin⟩ := mem_phiPreds.mp hp
        rw [site_of_ne (by rw [hphi]; decide)] at hat
        exact ⟨hf.edges p b (List.mem_of_getElem? hin), .of_mem (.phi hphi hat hv hin)⟩
      · obtain ⟨hout, hin⟩ := hp
        refine ⟨hf.edges p b hin, .of_step (.edge hin) (fun he => hout ?_)
          (hread u hu b i hi hphi 0 ?_ (by omega))⟩
        · rw [← he]
          exact ⟨rfl, by simp only []; omega⟩
        · rw [if_neg hout]
    · refine ⟨hf.edges p b hp, .of_step (.edge hp) (fun he => hne (he ▸ rfl))
        (hblock b hb hlive 0 ?_ (exitPos_nonneg b))⟩
      rw [if_neg hne]
  rcases (hs.points x).mp h with hx | ⟨u, hu, b, i, hi, hphi, hb, hlo, hhi⟩ | ⟨b, hb, hx, hlo, hhi⟩
  · exact .inl hx
  · subst hb
    exact .inr (hread u hu x.1 i hi hphi x.2 hlo hhi)
  · subst hx
    obtain ⟨hlt, hlive⟩ := hseen x.1 hb
    exact .inr (hblock x.1 hlt hlive x.2 hlo hhi)

/-- No path comes back to the entry of the function. -/
theorem entry_not_mem_tail (hf : f.SsaFunction) {a b : Point} {l : List Point}
    (h : Path f.Step a b l) : ((0, 0) : Point) ∉ l.tail := by
  induction h with
  | single => exact List.not_mem_nil
  | cons hs hp ih =>
    rw [List.tail_cons, hp.eq_cons]
    refine List.not_mem_cons_of_ne_of_not_mem (fun he => ?_) ih
    cases hs with
    | next _ hnn _ =>
      have h1 := congrArg Prod.snd he
      simp only [] at h1
      omega
    | edge hedge =>
      have h1 := congrArg Prod.fst he
      simp only [] at h1
      rw [← h1, hf.entry] at hedge
      exact absurd hedge List.not_mem_nil

theorem between_iff (hf : f.SsaFunction) (hd : f.DefPoint v d) {x : Point} :
    Between f.Step d {r | f.ReadPoint v r} x ↔ ∃ l, f.DefToRead v l ∧ x ∈ l := by
  constructor
  · rintro ⟨l, r, hr, hp, hdl, hx⟩
    exact ⟨l, ⟨d, r, hd, hr, hp, fun _ => hdl⟩, hx⟩
  · rintro ⟨l, ⟨d', r, hd', hr, hp, hdl⟩, hx⟩
    obtain rfl := hd.unique hf hd'
    refine ⟨l, r, hr, hp, ?_, hx⟩
    cases hd with
    | write hw => exact hdl hw
    | input => exact entry_not_mem_tail hf hp

/-- Every point of a block of the function is reached from the entry. -/
theorem reached_point (hf : f.SsaFunction) {b : ℕ} (hb : b < f.numBlocks) {p : ℤ} (hp : 0 ≤ p)
    (hp' : p ≤ f.exitPos b) : Relation.ReflTransGen f.Step (0, 0) (b, p) := by
  have hwithin : ∀ b < f.numBlocks, ∀ n : ℕ, (n : ℤ) ≤ f.exitPos b →
      Relation.ReflTransGen f.Step (b, 0) (b, n) := by
    intro b hb n hn
    induction n with
    | zero => exact .refl
    | succ n ih =>
      push_cast at hn ⊢
      exact (ih (by omega)).tail (.next hb (by omega) (by omega))
  have hentry : Relation.ReflTransGen f.Step (0, 0) (b, 0) := by
    have hpath := hf.reached b hb
    clear hb hp'
    induction hpath with
    | refl => exact .refl
    | @tail b' c _ hedge ih =>
      obtain ⟨n, hn⟩ := Int.eq_ofNat_of_zero_le (exitPos_nonneg (f := f) b')
      have hexit := hwithin b' (hf.edges b' c hedge) n hn.ge
      rw [← hn] at hexit
      exact (ih.trans hexit).tail (.edge hedge)
  obtain ⟨n, rfl⟩ := Int.eq_ofNat_of_zero_le hp
  exact hentry.trans (hwithin b hb n hp')

theorem live_reached (hf : f.SsaFunction) {x : Point}
    (h : Live f.Step d {r | f.ReadPoint v r} x) : Relation.ReflTransGen f.Step (0, 0) x := by
  obtain ⟨l, r, hr, hp, _⟩ := h
  cases hp with
  | single =>
    cases hr with
    | op _ _ hat =>
      have hlt := hat.pos_lt
      exact reached_point hf hat.lt (by omega) (by unfold exitPos; omega)
    | phi _ _ _ hin =>
      exact reached_point hf (hf.edges _ _ (List.mem_of_getElem? hin)) (exitPos_nonneg _) le_rfl
  | cons hs _ =>
    cases hs with
    | next hb hnn hlt => exact reached_point hf hb hnn hlt.le
    | edge hedge => exact reached_point hf (hf.edges _ _ hedge) (exitPos_nonneg _) le_rfl

/-- In an SSA function every path to a read passes the definition, an input's at the entry. -/
theorem defPoint_mem (hf : f.SsaFunction) (hd : f.DefPoint v d) {r : Point}
    (hr : f.ReadPoint v r) {l : List Point} (hp : Path f.Step (0, 0) r l) : d ∈ l := by
  cases hd with
  | write hw ho hat => exact hf.strict v _ r l hw (.write hw ho hat) hr hp
  | input => exact hp.head_mem

/-- The cover of a value is its definition and what lies between the definition and a read. -/
theorem exists_coverOf (hf : f.SsaFunction) (hv : (f.vn v).isFree = false) :
    ∃ c d, f.coverOf v f.opPositions = some c ∧ f.DefPoint v d ∧ c.Hulled ∧
      (∀ l, f.DefToRead v l → ∀ x ∈ l, c.containsPoint x.1 x.2 = true) ∧
      ∀ x : Point, c.containsPoint x.1 x.2 = true → x = d ∨ ∃ l, f.DefToRead v l ∧ x ∈ l := by
  obtain ⟨d, hsite, hd⟩ := exists_defSite hf hv
  obtain ⟨c, seen, hc, hs⟩ := coverOf_shape hf hv hsite hd.bounds.1 hd.bounds.2
  refine ⟨c, d, hc, hd, hs.hulled, fun l hl x hx => ?_, fun x hx => ?_⟩
  · have hbetween := (between_iff hf hd).mpr ⟨l, hl, hx⟩
    exact hs.complete hf hd hbetween.live
  · rcases hs.sound hf hd hx with h | h
    · exact .inl h
    · obtain ⟨l, hl⟩ := exists_path (live_reached hf h)
      exact .inr ((between_iff hf hd).mp (h.between (fun r hr l hp => defPoint_mem hf hd hr hp) hl))

/-- In every SSA function the cover of a value holds every point of every path from its definition to
a read, and no other point but the definition; two values live at one point have covers that
intersect. -/
theorem coverOf_life (hf : f.SsaFunction) :
    (∀ v, (f.vn v).isFree = false → ∃ c d, f.coverOf v f.opPositions = some c ∧ f.DefPoint v d ∧
      (∀ l, f.DefToRead v l → ∀ x ∈ l, c.containsPoint x.1 x.2 = true) ∧
      ∀ x : Point, c.containsPoint x.1 x.2 = true → x = d ∨ ∃ l, f.DefToRead v l ∧ x ∈ l) ∧
    ∀ v v' c c' x l l', f.coverOf v f.opPositions = some c →
      f.coverOf v' f.opPositions = some c' → f.DefToRead v l → x ∈ l → f.DefToRead v' l' → x ∈ l' →
      c.intersects c' = true := by
  constructor
  · intro v hv
    obtain ⟨c, d, hc, hd, _, hin, hout⟩ := exists_coverOf hf hv
    exact ⟨c, d, hc, hd, hin, hout⟩
  · intro v v' c c' x l l' hc hc' hl hx hl' hx'
    have hlife : ∀ v l, f.DefToRead v l → (f.vn v).isFree = false := by
      rintro v l ⟨d, _, hd, _⟩
      unfold Varnode.isFree
      cases hd with
      | write hw => rw [hw, Bool.true_or, Bool.not_true]
      | input _ hi => rw [hi, Bool.or_true, Bool.not_true]
    obtain ⟨c₁, _, h₁, _, hull, hin, _⟩ := exists_coverOf hf (hlife v l hl)
    obtain ⟨c₂, _, h₂, _, hull', hin', _⟩ := exists_coverOf hf (hlife v' l' hl')
    obtain rfl := Option.some.inj (hc.symm.trans h₁)
    obtain rfl := Option.some.inj (hc'.symm.trans h₂)
    exact Cover.intersects_of_common hull hull' (hin l hl x hx) (hin' l' hl' x hx')

end Life

/-- One block: `v0` is written, copied to `v1`, which is never read. -/
def copyOnce : Funcdata where
  spaces := SpaceManager.standard false
  vn v :=
    if v = 0 then { loc := ⟨2, 0⟩, size := 8, written := true, insert := true, defOp := some 0,
                    descend := [1], nzm := 0 }
    else if v = 1 then { loc := ⟨2, 8⟩, size := 8, written := true, insert := true,
                         defOp := some 1, nzm := 0 }
    else default
  numVarnodes := 2
  op o :=
    if o = 0 then { opcode := .load, output := some 0 }
    else if o = 1 then { opcode := .copy, output := some 1, inrefs := [0] }
    else default
  numOps := 2
  blocks := [{ ops := [0, 1] }]

theorem copyOnce_inrefs {v : VarnodeId} {u : OpId} :
    v ∈ (copyOnce.op u).inrefs ↔ v = 0 ∧ u = 1 := by
  unfold copyOnce
  simp only []
  split_ifs with h0 h1
  · subst h0
    simp
  · simp [h1]
  · simp only [h1, and_false, iff_false]
    exact List.not_mem_nil

theorem copyOnce_inEdges (c : ℕ) : (copyOnce.block c).inEdges = [] := by
  cases c <;> rfl

theorem copyOnce_readPoint {v : VarnodeId} {r : Point} (h : copyOnce.ReadPoint v r) :
    v = 0 ∧ r = (0, 3) := by
  cases h with
  | @op u b i hv _ hat =>
    obtain ⟨rfl, rfl⟩ := copyOnce_inrefs.mp hv
    have hb : b = 0 := Nat.lt_one_iff.mp hat.lt
    subst hb
    have hi := hat.pos_lt
    change i < 2 at hi
    interval_cases i
    · cases hat
    · exact ⟨rfl, rfl⟩
  | phi hphi _ hv =>
    obtain ⟨rfl, rfl⟩ := copyOnce_inrefs.mp (List.mem_of_getElem? hv)
    cases hphi

/-- A path in the block that starts before the write of `v0` passes it on the way to the read. -/
theorem copyOnce_path {a : Point} {l : List Point} (h : Path copyOnce.Step a (0, 3) l)
    (h0 : a.1 = 0) (ha : a.2 ≤ 2) : ((0, 2) : Point) ∈ l := by
  generalize hr : ((0, 3) : Point) = r at h
  induction h with
  | single =>
    subst hr
    exact absurd ha (by decide)
  | cons hs hp ih =>
    cases hs with
    | @next b p hlt hnn hend =>
      change b = 0 at h0
      subst h0
      by_cases hp2 : p = 2
      · subst hp2
        exact List.mem_cons_self
      · change p ≤ 2 at ha
        exact List.mem_cons_of_mem _ (ih rfl (by simp only []; omega) hr)
    | edge hedge =>
      rw [copyOnce_inEdges] at hedge
      exact absurd hedge List.not_mem_nil

theorem ssaFunction_copyOnce : copyOnce.SsaFunction where
  entry := rfl
  edges b c h := by
    rw [copyOnce_inEdges] at h
    exact absurd h List.not_mem_nil
  reached b hb := by
    obtain rfl : b = 0 := Nat.lt_one_iff.mp hb
    exact .refl
  placed := by decide
  defined v hv := by
    by_cases h0 : v = 0
    · subst h0
      exact ⟨0, by decide, rfl⟩
    · by_cases h1 : v = 1
      · subst h1
        exact ⟨1, by decide, rfl⟩
      · unfold copyOnce at hv
        simp only [h0, h1, if_false] at hv
        cases hv
  readers v op := by
    rw [copyOnce_inrefs]
    unfold copyOnce
    simp only []
    split_ifs with h0 h1
    · simp [h0]
    · simp [h0]
    · simp only [h0, false_and, iff_false]
      exact List.not_mem_nil
  strict v d r l _ hd hr hp := by
    obtain ⟨rfl, rfl⟩ := copyOnce_readPoint hr
    cases hd with
    | @write op b i _ ho hat =>
      cases ho
      have hb : b = 0 := Nat.lt_one_iff.mp hat.lt
      subst hb
      have hi := hat.pos_lt
      change i < 2 at hi
      interval_cases i
      · exact copyOnce_path hp rfl (by decide)
      · cases hat
    | input hw => cases hw
  fits b := by
    cases b with
    | zero => decide
    | succ b =>
      change (2 : ℤ) * (0 : ℕ) + 2 ≤ Cover.i32Max
      decide

/-- The theorem at a block that writes a value and reads it once. -/
theorem coverOf_life_copyOnce : ∃ c, copyOnce.coverOf 0 copyOnce.opPositions = some c ∧
    c.containsPoint 0 2 = true ∧ c.containsPoint 0 3 = true := by
  obtain ⟨hlife, _⟩ := coverOf_life ssaFunction_copyOnce
  obtain ⟨c, d, hc, _, hin, _⟩ := hlife 0 rfl
  have hpath : copyOnce.DefToRead 0 [(0, 2), (0, 3)] := by
    refine ⟨(0, 2), (0, 3), @DefPoint.write copyOnce 0 0 0 0 rfl rfl rfl,
      .op (u := 1) (b := 0) (i := 1) (copyOnce_inrefs.mpr ⟨rfl, rfl⟩) (by decide) rfl,
      .cons (.next (by decide) (by decide) (by decide)) (.single _), fun _ => by decide⟩
  exact ⟨c, hc, hin _ hpath (0, 2) (by decide), hin _ hpath (0, 3) (by decide)⟩

/-- A value that is never read has the point of its definition as its cover. -/
theorem coverOf_unread_point : copyOnce.SsaFunction ∧ (copyOnce.vn 1).isFree = false ∧
    (∃ c, copyOnce.coverOf 1 copyOnce.opPositions = some c ∧ c.containsPoint 0 4 = true) ∧
    ¬∃ l, copyOnce.DefToRead 1 l ∧ ((0, 4) : Point) ∈ l := by
  refine ⟨ssaFunction_copyOnce, rfl, ⟨_, rfl, by decide⟩, ?_⟩
  rintro ⟨l, ⟨_, r, _, hr, _⟩, _⟩
  exact absurd (copyOnce_readPoint hr).1 (by decide)

end Funcdata
end Mosura
