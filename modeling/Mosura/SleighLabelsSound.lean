import Mosura.SleighLabels

/-! Where the branches of an instruction's p-code go. -/

namespace Mosura
namespace Sleigh

namespace Build

/-- The first label id of an expansion. -/
def start (blocks : List ℕ) (inst : ℕ) : ℕ := (blocks.take inst).sum

/-- Every expansion left the base it found. -/
def Restored (b : Build) : Prop := ∀ x ∈ b.trace.exits, x.1 = x.2

/-- A branch goes to its label in its own expansion, and to nowhere without one. -/
def Resolved (b : Build) : Prop :=
  ∀ inst id index size, (inst, id, index, size) ∈ b.trace.branches →
    (∀ target, (inst, id, target) ∈ b.trace.labels →
      ∃ op v ins, b.resolve[index]? = some op ∧ op.ins = .var v :: ins ∧
        v.offset = displacement target index size) ∧
    ((∀ target, (inst, id, target) ∉ b.trace.labels) →
      ∃ op, b.resolve[index]? = some op ∧ op.ins = [])

end Build

namespace Expansion
open Build

theorem restored_leave {b : Build} {old base : ℕ} :
    (b.leave old base).Restored ↔ b.Restored ∧ old = base := by
  unfold Restored leave
  simp only [List.forall_mem_append, List.forall_mem_singleton]

/-- The bases are restored just along expansions that keep them. -/
theorem run_exits (e : Expansion) (inst : ℕ) {b : Build} (hle : b.base ≤ b.count) :
    (e.run inst b).count = b.count + e.ids ∧ (e.run inst b).base ≤ (e.run inst b).count ∧
      ((e.run inst b).Restored ↔ b.Restored ∧ e.KeepsBase (b.count - b.base)) ∧
      (e.KeepsBase (b.count - b.base) → (e.run inst b).base = b.base) := by
  induction e generalizing inst b with
  | done => exact ⟨rfl, hle, (and_iff_left trivial).symm, fun _ => rfl⟩
  | stop => exact ⟨rfl, hle, (and_iff_left trivial).symm, fun _ => rfl⟩
  | label id rest ih => exact ih inst (b := b.define inst id) hle
  | branch id size op rest ih => exact ih inst (b := b.branch inst id size op) hle
  | emit ops rest ih => exact ih inst (b := b.emit ops) hle
  | inline pos rest ih => exact ih inst (b := b.inline pos) hle
  | build n inner rest ihInner ihRest =>
    obtain ⟨hcount, hbase, hrestored, hkept⟩ :=
      ihInner b.trace.blocks.length (b := b.enter n) (Nat.le_add_right _ _)
    have hgiven : (b.enter n).count - (b.enter n).base = n := Nat.add_sub_cancel_left _ _
    rw [hgiven] at hrestored hkept
    generalize hb' : inner.run b.trace.blocks.length (b.enter n) = b' at hcount hbase hrestored hkept
    have hcount' : b'.count = b.count + n + inner.ids := hcount
    have hrestored' : b'.Restored ↔ b.Restored ∧ inner.KeepsBase n := hrestored
    have hkept' : inner.KeepsBase n → b'.base = b.count := hkept
    have hrun : (build n inner rest).run inst b =
        rest.run inst (b'.leave b.base (if inner.stops then b'.base else b.base)) := by
      rw [run, hb']
    rw [hrun]
    generalize hx : (if inner.stops then b'.base else b.base) = x
    have hxle : x ≤ b'.count := by
      rw [← hx]
      split_ifs <;> omega
    -- the base is the old one unless the expansion returns with a later block
    have hback : inner.KeepsBase n → (b.base = x ↔ (inner.stops = true → b.count - b.base = 0)) := by
      intro hinner
      rw [← hx, hkept' hinner]
      split_ifs with hstops
      · exact ⟨fun h _ => by omega, fun h => by have := h hstops; omega⟩
      · exact ⟨fun _ h => absurd h hstops, fun _ => rfl⟩
    obtain ⟨hcountR, hbaseR, hrestoredR, hkeptR⟩ :=
      ihRest inst (b := b'.leave b.base x) hxle
    have hnext : b.base = x →
        (b'.leave b.base x).count - (b'.leave b.base x).base = b.count - b.base + n + inner.ids := by
      intro h
      change b'.count - x = _
      omega
    refine ⟨?_, hbaseR, ?_, ?_⟩
    · rw [hcountR]
      change b'.count + rest.ids = b.count + (n + inner.ids + rest.ids)
      omega
    · rw [hrestoredR, restored_leave, hrestored']
      constructor
      · rintro ⟨⟨⟨hb, hinner⟩, hbx⟩, hrest⟩
        rw [hnext hbx] at hrest
        exact ⟨hb, (hback hinner).mp hbx, hinner, hrest⟩
      · rintro ⟨hb, hstops, hinner, hrest⟩
        have hbx := (hback hinner).mpr hstops
        rw [← hnext hbx] at hrest
        exact ⟨⟨⟨hb, hinner⟩, hbx⟩, hrest⟩
    · rintro ⟨hstops, hinner, hrest⟩
      have hbx := (hback hinner).mpr hstops
      rw [← hnext hbx] at hrest
      exact (hkeptR hrest).trans hbx.symm

/-! The ids and the operations. -/

/-- The ids are those of the expansions' blocks. -/
structure Inv (b : Build) : Prop where
  count : b.count = b.trace.blocks.sum
  refs : b.refs = b.trace.branches.map fun r =>
    (r.2.2.1, r.2.1 + start b.trace.blocks r.1, r.2.2.2)
  at_ : ∀ k p, b.at_ k = some p ↔
    ∃ x ∈ b.trace.labels, x.2.1 + start b.trace.blocks x.1 = k ∧ x.2.2 = p
  label_lt : ∀ x ∈ b.trace.labels, ∃ n, b.trace.blocks[x.1]? = some n ∧ x.2.1 < n
  branch_lt : ∀ r ∈ b.trace.branches, ∃ n, b.trace.blocks[r.1]? = some n ∧ r.2.1 < n
  index : ∀ r ∈ b.trace.branches, ∃ op v ins, b.ops[r.2.2.1]? = some op ∧ op.ins = .var v :: ins
  apart : (b.trace.branches.map fun r => r.2.2.1).Nodup

theorem start_add_le {blocks : List ℕ} {i j n : ℕ} (hi : blocks[i]? = some n) (hij : i < j) :
    start blocks i + n ≤ start blocks j := by
  obtain ⟨hlt, rfl⟩ := List.getElem?_eq_some_iff.mp hi
  unfold start
  rw [← List.sum_take_succ _ _ hlt]
  exact List.monotone_sum_take blocks hij

/-- The blocks do not overlap: an id says whose it is. -/
theorem start_inj {blocks : List ℕ} {i j n m a c : ℕ} (hi : blocks[i]? = some n) (ha : a < n)
    (hj : blocks[j]? = some m) (hc : c < m)
    (h : a + start blocks i = c + start blocks j) : i = j ∧ a = c := by
  rcases lt_trichotomy i j with hij | rfl | hij
  · have := start_add_le hi hij
    omega
  · exact ⟨rfl, Nat.add_right_cancel h⟩
  · have := start_add_le hj hij
    omega

theorem start_append {blocks more : List ℕ} {i : ℕ} (hi : i ≤ blocks.length) :
    start (blocks ++ more) i = start blocks i := by
  unfold start
  rw [List.take_append_of_le_length hi]

/-- Where an expansion stands: its block, and the labels it may still set. -/
structure At (e : Expansion) (inst : ℕ) (b : Build) (n : ℕ) : Prop where
  block : b.trace.blocks[inst]? = some n
  base : b.base = start b.trace.blocks inst
  declared : e.Declared n
  fresh : ∀ x ∈ b.trace.labels, x.1 = inst → x.2.1 ∉ e.ownLabels

theorem Inv.define {b : Build} {inst id n : ℕ} {rest : Expansion} (h : Inv b)
    (hat : At (.label id rest) inst b n) :
    Inv (b.define inst id) ∧ At rest inst (b.define inst id) n := by
  obtain ⟨hlt, hnew, hdecl⟩ := hat.declared
  refine ⟨⟨h.count, h.refs, fun k p => ?_, fun x hx => ?_, h.branch_lt, h.index, h.apart⟩,
    hat.block, hat.base, hdecl, fun x hx hinst => ?_⟩
  · change Function.update b.at_ (id + b.base) (some b.ops.length) k = some p ↔
      ∃ x ∈ b.trace.labels ++ [(inst, id, b.ops.length)], _
    simp only [List.mem_append, List.mem_singleton, or_and_right, exists_or, exists_eq_left]
    by_cases hk : k = id + b.base
    · rw [hk, Function.update_self, Option.some.injEq, hat.base]
      refine ⟨fun hp => .inr ⟨rfl, hp⟩, ?_⟩
      rintro (⟨x, hx, hid, -⟩ | ⟨-, hp⟩)
      · obtain ⟨m, hm, hxlt⟩ := h.label_lt x hx
        obtain ⟨hinst, hid⟩ := start_inj hm hxlt hat.block hlt hid
        exact absurd (hid ▸ List.mem_cons_self) (hat.fresh x hx hinst)
      · exact hp
    · rw [Function.update_of_ne hk, h.at_]
      refine ⟨.inl, fun hp => hp.resolve_right fun hid => hk ?_⟩
      rw [hat.base]
      exact hid.1.symm
  · obtain hx | hx := List.mem_append.mp hx
    · exact h.label_lt x hx
    · rw [List.mem_singleton.mp hx]
      exact ⟨n, hat.block, hlt⟩
  · obtain hx | hx := List.mem_append.mp hx
    · exact fun hmem => hat.fresh x hx hinst (List.mem_cons_of_mem _ hmem)
    · rw [List.mem_singleton.mp hx]
      exact hnew

theorem Inv.index_lt {b : Build} (h : Inv b) {r : ℕ × ℕ × ℕ × ℕ} (hr : r ∈ b.trace.branches) :
    r.2.2.1 < b.ops.length := by
  obtain ⟨op, v, ins, hop, -⟩ := h.index r hr
  exact (List.getElem?_eq_some_iff.mp hop).1

theorem Inv.index_append {b : Build} (h : Inv b) (ops : List PcodeOp) {r : ℕ × ℕ × ℕ × ℕ}
    (hr : r ∈ b.trace.branches) :
    ∃ op v ins, (b.ops ++ ops)[r.2.2.1]? = some op ∧ op.ins = .var v :: ins := by
  rw [List.getElem?_append_left (h.index_lt hr)]
  exact h.index r hr

theorem Inv.branch {b : Build} {inst id size n : ℕ} {op : PcodeOp} {rest : Expansion} (h : Inv b)
    (hat : At (.branch id size op rest) inst b n) :
    Inv (b.branch inst id size op) ∧ At rest inst (b.branch inst id size op) n := by
  obtain ⟨hlt, ⟨v, ins, hins⟩, hdecl⟩ := hat.declared
  refine ⟨⟨h.count, ?_, h.at_, h.label_lt, fun r hr => ?_, fun r hr => ?_, ?_⟩,
    hat.block, hat.base, hdecl, hat.fresh⟩
  · change b.refs ++ [(b.ops.length, id + b.base, size)] = List.map _ (b.trace.branches ++ [_])
    rw [List.map_append, h.refs, hat.base]
    rfl
  · obtain hr | hr := List.mem_append.mp hr
    · exact h.branch_lt r hr
    · rw [List.mem_singleton.mp hr]
      exact ⟨n, hat.block, hlt⟩
  · obtain hr | hr := List.mem_append.mp hr
    · exact h.index_append [op] hr
    · rw [List.mem_singleton.mp hr]
      exact ⟨op, v, ins, List.getElem?_concat_length, hins⟩
  · change (List.map _ (b.trace.branches ++ [_])).Nodup
    rw [List.map_append]
    refine List.nodup_append.mpr ⟨h.apart, List.nodup_singleton _, fun i hi j hj => ?_⟩
    obtain ⟨r, hr, rfl⟩ := List.mem_map.mp hi
    rw [List.map_singleton] at hj
    rw [List.mem_singleton.mp hj]
    exact (h.index_lt hr).ne

theorem Inv.emit {b : Build} (ops : List PcodeOp) (h : Inv b) : Inv (b.emit ops) :=
  ⟨h.count, h.refs, h.at_, h.label_lt, h.branch_lt, fun _ hr => h.index_append ops hr, h.apart⟩

theorem Inv.inline {b : Build} (pos : ℕ) (h : Inv b) : Inv (b.inline pos) :=
  ⟨h.count, h.refs, h.at_, h.label_lt, h.branch_lt, h.index, h.apart⟩

theorem Inv.enter {b : Build} (n : ℕ) (h : Inv b) : Inv (b.enter n) := by
  have hlt {i m : ℕ} (hi : b.trace.blocks[i]? = some m) : i < b.trace.blocks.length :=
    (List.getElem?_eq_some_iff.mp hi).1
  have hold {i m : ℕ} (hi : b.trace.blocks[i]? = some m) :
      (b.trace.blocks ++ [n])[i]? = some m := by
    rw [List.getElem?_append_left (hlt hi), hi]
  refine ⟨?_, ?_, fun k p => ?_, fun x hx => ?_, fun r hr => ?_, h.index, h.apart⟩
  · change b.count + n = (b.trace.blocks ++ [n]).sum
    rw [List.sum_append, List.sum_singleton, h.count]
  · refine h.refs.trans (List.map_congr_left fun r hr => ?_)
    obtain ⟨m, hm, -⟩ := h.branch_lt r hr
    change _ = (_, r.2.1 + start (b.trace.blocks ++ [n]) r.1, _)
    rw [start_append (hlt hm).le]
  · refine (h.at_ k p).trans (exists_congr fun x => and_congr_right fun hx => ?_)
    obtain ⟨m, hm, -⟩ := h.label_lt x hx
    change _ ↔ x.2.1 + start (b.trace.blocks ++ [n]) x.1 = k ∧ _
    rw [start_append (hlt hm).le]
  · obtain ⟨m, hm, hxlt⟩ := h.label_lt x hx
    exact ⟨m, hold hm, hxlt⟩
  · obtain ⟨m, hm, hrlt⟩ := h.branch_lt r hr
    exact ⟨m, hold hm, hrlt⟩

theorem Inv.leave {b : Build} (old base : ℕ) (h : Inv b) : Inv (b.leave old base) :=
  ⟨h.count, h.refs, h.at_, h.label_lt, h.branch_lt, h.index, h.apart⟩

/-- What an expansion adds: its own labels, and those of expansions that begin later. -/
structure Grows (own : List ℕ) (inst : ℕ) (b b' : Build) : Prop where
  blocks : ∃ more, b'.trace.blocks = b.trace.blocks ++ more
  labels : ∀ x ∈ b'.trace.labels, x ∈ b.trace.labels ∨ x.1 = inst ∧ x.2.1 ∈ own ∨
    b.trace.blocks.length ≤ x.1

theorem Grows.refl (own : List ℕ) (inst : ℕ) (b : Build) : Grows own inst b b :=
  ⟨⟨[], (List.append_nil _).symm⟩, fun _ hx => .inl hx⟩

theorem Grows.define {b b' : Build} {inst id : ℕ} {own : List ℕ}
    (h : Grows own inst (b.define inst id) b') : Grows (id :: own) inst b b' := by
  refine ⟨h.blocks, fun x hx => ?_⟩
  obtain hx | ⟨hinst, hown⟩ | hlen := h.labels x hx
  · obtain hx | hx := List.mem_append.mp hx
    · exact .inl hx
    · rw [List.mem_singleton.mp hx]
      exact .inr (.inl ⟨rfl, List.mem_cons_self⟩)
  · exact .inr (.inl ⟨hinst, List.mem_cons_of_mem _ hown⟩)
  · exact .inr (.inr hlen)

/-- A whole expansion inside adds labels of later expansions only. -/
theorem Grows.build {b b₁ b₂ : Build} {inst n : ℕ} {inner own : List ℕ} {old base : ℕ}
    (hinner : Grows inner b.trace.blocks.length (b.enter n) b₁)
    (hrest : Grows own inst (b₁.leave old base) b₂) : Grows own inst b b₂ := by
  obtain ⟨more, hmore⟩ := hinner.blocks
  obtain ⟨more', hmore'⟩ := hrest.blocks
  have hblocks : b₁.trace.blocks = b.trace.blocks ++ ([n] ++ more) := by
    rw [hmore, ← List.append_assoc]
    rfl
  have hlen : b.trace.blocks.length ≤ b₁.trace.blocks.length := by
    rw [hblocks, List.length_append]
    exact Nat.le_add_right _ _
  refine ⟨⟨[n] ++ more ++ more', ?_⟩, fun x hx => ?_⟩
  · rw [hmore', ← List.append_assoc, ← hblocks]
    rfl
  · obtain hx | hown | hlater := hrest.labels x hx
    · obtain hx | ⟨hinst, -⟩ | hlater := hinner.labels x hx
      · exact .inl hx
      · exact .inr (.inr hinst.ge)
      · change (b.trace.blocks ++ [n]).length ≤ x.1 at hlater
        rw [List.length_append] at hlater
        exact .inr (.inr (by omega))
    · exact .inr (.inl hown)
    · exact .inr (.inr (hlen.trans hlater))

/-- An expansion inside stands in the fresh block. -/
theorem At.enter {b : Build} {inst n m : ℕ} {inner rest : Expansion} (h : Inv b)
    (hat : At (.build m inner rest) inst b n) :
    At inner b.trace.blocks.length (b.enter m) m := by
  refine ⟨List.getElem?_concat_length, ?_, hat.declared.1, fun x hx hinst => ?_⟩
  · change b.count = start (b.trace.blocks ++ [m]) b.trace.blocks.length
    rw [start_append le_rfl, start, List.take_length, h.count]
  · obtain ⟨k, hk, -⟩ := h.label_lt x hx
    exact absurd hinst (List.getElem?_eq_some_iff.mp hk).1.ne

/-- The rest stands where it stood, once the base is back. -/
theorem At.leave {b b₁ : Build} {inst n m : ℕ} {inner rest : Expansion} {own : List ℕ}
    (hat : At (.build m inner rest) inst b n)
    (hinner : Grows own b.trace.blocks.length (b.enter m) b₁) :
    At rest inst (b₁.leave b.base b.base) n := by
  obtain ⟨more, hmore⟩ := hinner.blocks
  have hblocks : b₁.trace.blocks = b.trace.blocks ++ ([m] ++ more) := by
    rw [hmore, ← List.append_assoc]
    rfl
  have hlt : inst < b.trace.blocks.length := (List.getElem?_eq_some_iff.mp hat.block).1
  refine ⟨?_, ?_, hat.declared.2, fun x hx hinst => ?_⟩
  · change b₁.trace.blocks[inst]? = some n
    rw [hblocks, List.getElem?_append_left hlt, hat.block]
  · change b.base = start b₁.trace.blocks inst
    rw [hblocks, start_append hlt.le, hat.base]
  · obtain hx | ⟨hlen, -⟩ | hlater := hinner.labels x hx
    · exact hat.fresh x hx hinst
    · omega
    · change (b.trace.blocks ++ [m]).length ≤ x.1 at hlater
      rw [List.length_append] at hlater
      omega

/-- An expansion that keeps the bases keeps the invariant. -/
theorem run_inv (e : Expansion) {inst n : ℕ} {b : Build} (h : Inv b) (hat : At e inst b n)
    (hle : b.base ≤ b.count) (hkeeps : e.KeepsBase (b.count - b.base)) :
    Inv (e.run inst b) ∧ Grows e.ownLabels inst b (e.run inst b) := by
  induction e generalizing inst n b with
  | done => exact ⟨h, .refl _ _ _⟩
  | stop => exact ⟨h, .refl _ _ _⟩
  | label id rest ih =>
    obtain ⟨h', hat'⟩ := h.define hat
    obtain ⟨hinv, hgrows⟩ := ih h' hat' hle hkeeps
    exact ⟨hinv, hgrows.define⟩
  | branch id size op rest ih =>
    obtain ⟨h', hat'⟩ := h.branch hat
    obtain ⟨hinv, hgrows⟩ := ih h' hat' hle hkeeps
    exact ⟨hinv, hgrows.blocks, hgrows.labels⟩
  | emit ops rest ih =>
    obtain ⟨hinv, hgrows⟩ :=
      ih (h.emit ops) ⟨hat.block, hat.base, hat.declared, hat.fresh⟩ hle hkeeps
    exact ⟨hinv, hgrows.blocks, hgrows.labels⟩
  | inline pos rest ih =>
    obtain ⟨hinv, hgrows⟩ :=
      ih (h.inline pos) ⟨hat.block, hat.base, hat.declared, hat.fresh⟩ hle hkeeps
    exact ⟨hinv, hgrows.blocks, hgrows.labels⟩
  | build m inner rest ihInner ihRest =>
    obtain ⟨hstops, hinner, hrest⟩ := hkeeps
    have hle' : (b.enter m).base ≤ (b.enter m).count := Nat.le_add_right _ _
    have hgiven : (b.enter m).count - (b.enter m).base = m := Nat.add_sub_cancel_left _ _
    have hinner' : inner.KeepsBase ((b.enter m).count - (b.enter m).base) := by rwa [hgiven]
    obtain ⟨hinv, hgrows⟩ := ihInner (h.enter m) (At.enter h hat) hle' hinner'
    obtain ⟨hcount, -, -, hbase⟩ := run_exits inner b.trace.blocks.length hle'
    have hback : (if inner.stops then (inner.run b.trace.blocks.length (b.enter m)).base
        else b.base) = b.base := by
      split_ifs with hs
      · rw [hbase hinner']
        change b.count = b.base
        have := hstops hs
        omega
      · rfl
    rw [run, hback]
    have hcount' : (inner.run b.trace.blocks.length (b.enter m)).count =
        b.count + m + inner.ids := hcount
    obtain ⟨hinvR, hgrowsR⟩ := ihRest (hinv.leave b.base b.base) (hat.leave hgrows)
      (by change b.base ≤ (inner.run b.trace.blocks.length (b.enter m)).count; omega)
      (by
        change rest.KeepsBase ((inner.run b.trace.blocks.length (b.enter m)).count - b.base)
        rw [hcount', show b.count + m + inner.ids - b.base = b.count - b.base + m + inner.ids by omega]
        exact hrest)
    exact ⟨hinvR, hgrows.build hgrowsR⟩

/-! Resolving the branches. -/

/-- Patching elsewhere leaves an operation alone. -/
theorem foldl_modify_of_notMem {α β : Type} (index : β → ℕ) (f : β → α → α) (refs : List β)
    (ops : List α) {i : ℕ} (hi : i ∉ refs.map index) :
    (refs.foldl (fun ops r => ops.modify (index r) (f r)) ops)[i]? = ops[i]? := by
  induction refs generalizing ops with
  | nil => rfl
  | cons r refs ih =>
    rw [List.map_cons, List.mem_cons, not_or] at hi
    rw [List.foldl_cons, ih _ hi.2, List.getElem?_modify_ne _ _ (Ne.symm hi.1)]

/-- Each operation is patched by its own branch. -/
theorem foldl_modify_of_mem {α β : Type} (index : β → ℕ) (f : β → α → α) {refs : List β}
    (ops : List α) {r : β} (hr : r ∈ refs) (hapart : (refs.map index).Nodup) :
    (refs.foldl (fun ops r => ops.modify (index r) (f r)) ops)[index r]? =
      ops[index r]?.map (f r) := by
  induction refs generalizing ops with
  | nil => cases hr
  | cons r' refs ih =>
    obtain ⟨hnew, hapart⟩ := List.nodup_cons.mp hapart
    rw [List.foldl_cons]
    obtain rfl | hr := List.mem_cons.mp hr
    · rw [foldl_modify_of_notMem index f refs _ hnew, List.getElem?_modify_eq]
      rfl
    · have hne : index r' ≠ index r := fun h => hnew (h ▸ List.mem_map_of_mem hr)
      rw [ih _ hr hapart, List.getElem?_modify_ne _ _ hne]

theorem patch_ins {op : PcodeOp} {v : Emu.Varnode} {ins : List Emu.PArg}
    (h : op.ins = .var v :: ins) (target index size : ℕ) :
    (patch (some target) index size op).ins =
      .var { v with offset := displacement target index size } :: ins := by
  unfold patch
  rw [h]

/-- What becomes of a branch of the trace. -/
theorem Inv.resolve_branch {b : Build} (h : Inv b) {inst id index size : ℕ}
    (hr : (inst, id, index, size) ∈ b.trace.branches) :
    ∃ op v ins, op.ins = .var v :: ins ∧
      b.resolve[index]? = some (patch (b.at_ (id + start b.trace.blocks inst)) index size op) := by
  obtain ⟨op, v, ins, hop, hins⟩ := h.index _ hr
  have hmem : (index, id + start b.trace.blocks inst, size) ∈ b.refs := by
    rw [h.refs]
    exact List.mem_map_of_mem hr
  have hapart : (b.refs.map Prod.fst).Nodup := by
    rw [h.refs, List.map_map]
    exact h.apart
  refine ⟨op, v, ins, hins, ?_⟩
  have hpatched := foldl_modify_of_mem Prod.fst (fun r => patch (b.at_ r.2.1) r.1 r.2.2) b.ops
    hmem hapart
  rw [hop] at hpatched
  exact hpatched

theorem Inv.resolved {b : Build} (h : Inv b) : b.Resolved := by
  intro inst id index size hr
  obtain ⟨op, v, ins, hins, hresolve⟩ := h.resolve_branch hr
  obtain ⟨n, hblock, hid⟩ := h.branch_lt _ hr
  refine ⟨fun target ht => ?_, fun hnone => ?_⟩
  · have hat : b.at_ (id + start b.trace.blocks inst) = some target :=
      (h.at_ _ _).mpr ⟨_, ht, rfl, rfl⟩
    rw [hat] at hresolve
    exact ⟨_, _, ins, hresolve, patch_ins hins target index size, rfl⟩
  · have hat : b.at_ (id + start b.trace.blocks inst) = none := by
      refine Option.eq_none_iff_forall_ne_some.mpr fun target htarget => ?_
      obtain ⟨⟨inst', id', target'⟩, hx, heq, rfl⟩ := (h.at_ _ _).mp htarget
      obtain ⟨m, hm, hxlt⟩ := h.label_lt _ hx
      -- an id of another expansion is another id
      obtain ⟨rfl, rfl⟩ := start_inj hm hxlt hblock hid heq
      exact hnone _ hx
    rw [hat] at hresolve
    exact ⟨_, hresolve, rfl⟩

theorem inv_empty : Inv {} :=
  ⟨rfl, rfl, fun _ _ => ⟨nofun, fun ⟨_, hx, _⟩ => nomatch hx⟩, nofun, nofun, nofun, List.nodup_nil⟩

/-- A whole expansion resolves its branches when it keeps the bases. -/
theorem run_resolved (n : ℕ) (inner : Expansion) (hdecl : (build n inner done).Declared 0)
    (hkeeps : (build n inner done).KeepsBase 0) : ((build n inner done).run 0 {}).Resolved := by
  have hat : At inner 0 (({} : Build).enter n) n :=
    ⟨rfl, rfl, hdecl.1, nofun⟩
  have hgiven : (({} : Build).enter n).count - (({} : Build).enter n).base = n :=
    Nat.add_sub_cancel_left _ _
  obtain ⟨hinv, -⟩ := run_inv inner (inv_empty.enter n) hat (Nat.le_add_right _ _)
    (hgiven.symm ▸ hkeeps.2.1)
  exact (hinv.leave _ _).resolved

end Expansion

namespace Spec
open Expansion

variable {C : Type} (s : Spec C)

/-- A tree's plan is one expansion, or nothing where the constructor has no template. -/
theorem plan_cases (node : Node) (w : Walker C) :
    s.plan node w = .done ∨ ∃ n inner, s.plan node w = .build n inner .done := by
  obtain ⟨subtable, ctorIdx, offset, length, operands⟩ := node
  unfold plan planNode planInto
  cases s.ctorOf (.mk subtable ctorIdx offset length operands) with
  | none => exact .inl rfl
  | some tmpl => exact .inr ⟨_, _, rfl⟩

/-- Every branch goes to the label of its own expansion, and every expansion gives the base back. -/
def LabelsOwn (node : Node) (w : Walker C) : Prop :=
  (s.expand node w).Restored ∧ (s.expand node w).Resolved

/-- The labels are right just where no return in the middle leaves a later base behind. -/
theorem labelsOwn_iff (node : Node) (w : Walker C) :
    s.LabelsOwn node w ↔ (s.plan node w).KeepsBase 0 := by
  unfold LabelsOwn
  rw [expand_eq]
  obtain ⟨-, -, hrestored, -⟩ := run_exits (s.plan node w) 0 (b := {}) le_rfl
  have hexits : ((s.plan node w).run 0 {}).Restored ↔ (s.plan node w).KeepsBase 0 :=
    hrestored.trans (and_iff_right nofun)
  refine ⟨fun h => hexits.mp h.1, fun h => ⟨hexits.mpr h, ?_⟩⟩
  have hdecl := s.declared_plan node w
  obtain hplan | ⟨n, inner, hplan⟩ := s.plan_cases node w
  · rw [hplan]
    exact inv_empty.resolved
  · rw [hplan] at h hdecl ⊢
    exact run_resolved n inner hdecl h

section Loop

/-- A template with one label. -/
def oneLabel (ops : List OpTpl) (hlabel : ∀ op ∈ ops, op.labelId = none ∨ op.labelId = some 0)
    (hrelative : ∀ op ∈ ops, op.relativeId = none ∨ op.relativeId = some 0)
    (hnodup : (ops.filterMap OpTpl.labelId).Nodup) : ConstructTpl where
  ops := ops
  numlabels := 1
  result := none
  label_lt := fun op hop id hid => by
    obtain h | h := hlabel op hop <;> rw [h] at hid <;> cases hid
    decide
  relative_lt := fun op hop id hid => by
    obtain h | h := hrelative op hop <;> rw [h] at hid <;> cases hid
    decide
  label_nodup := hnodup

def loopStart : OpTpl := ⟨opLabelBuild, none, [⟨.real 0, .real 0, .real 4⟩]⟩

def loopBack (conds : List VarnodeTpl) : OpTpl :=
  ⟨opCbranch, none, ⟨.real 0, .relative 0, .real 4⟩ :: conds⟩

/-- A loop over a load and a loop whose condition does not resolve. -/
def loopSpec : Spec Unit where
  tmpl := fun _ ctorIdx => some <|
    if ctorIdx = 0 then
      oneLabel [loopStart, ⟨opBuild, none, [⟨.real 0, .real 0, .real 4⟩]⟩, loopBack []]
        (by decide) (by decide) (by decide)
    else
      oneLabel [⟨opLoad, none, []⟩, loopStart,
          loopBack [⟨.handle 0 0 0, .handle 0 1 0, .handle 0 2 0⟩]]
        (by decide) (by decide) (by decide)
  resolve := fun _ _ _ => none
  leafHandle := fun _ _ _ _ => none
  exprValue := fun _ _ _ _ => (0, 0)
  defaultSpace := 1
  defaultSpaceSize := 4
  uniqueSpace := 2
  spaceName := fun v => if v = 0 then "const" else "ram"
  wrapOffset := fun _ offset => offset

def loopNode : Node := .mk 0 0 0 2 [.sub (.mk 1 1 0 2 [.leaf 0 0 1])]

def loopWalker : Walker Unit := ⟨0, [0, 0], 0, (), 2⟩

/-- The outer branch goes to the inner label, and the inner base stays. -/
theorem loopSpec_not_labelsOwn : ¬ loopSpec.LabelsOwn loopNode loopWalker := by
  rintro ⟨-, hresolved⟩
  obtain ⟨op, v, ins, hop, hins, hoffset⟩ := (hresolved 0 0 1 4 (by decide)).1 0 (by decide)
  have hresolve : (loopSpec.expand loopNode loopWalker).resolve[1]? =
      some ⟨opCbranch, none, [.var ⟨"const", 0, 4⟩], .other⟩ := by decide
  rw [hresolve] at hop
  rw [← Option.some.inj hop] at hins
  rw [← Emu.PArg.var.inj (List.cons.inj hins).1] at hoffset
  exact absurd hoffset (by decide)

end Loop

end Spec
end Sleigh
end Mosura
