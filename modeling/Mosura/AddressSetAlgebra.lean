import Mosura.AddressSet

/-! The rest of the algebra of address sets (`address_set.rs`). -/

namespace Mosura

namespace AddressRange

/-- The addresses of two ranges in common. -/
def meet (a b : AddressRange) : Option AddressRange :=
  if a.space ≠ b.space then none
  else
    let lo := if a.min ≤ b.min then b.min else a.min
    let hi := if a.max ≤ b.max then a.max else b.max
    if h : lo ≤ hi then some ⟨a.space, lo, hi, h⟩ else none

/-- `a` ends before `b` begins, in the order of spaces and offsets. -/
def EndsBefore (a b : AddressRange) : Prop := a.space < b.space ∨ a.space = b.space ∧ a.max < b.min

instance (a b : AddressRange) : Decidable (a.EndsBefore b) :=
  inferInstanceAs (Decidable (a.space < b.space ∨ a.space = b.space ∧ a.max < b.min))

theorem meet_contains (a b : AddressRange) (x : Address) :
    (∃ r ∈ a.meet b, r.Contains x) ↔ a.Contains x ∧ b.Contains x := by
  unfold meet
  by_cases hs : a.space ≠ b.space
  · rw [if_pos hs]
    refine iff_of_false (fun h => ?_) fun h => hs (h.1.1.trans h.2.1.symm)
    obtain ⟨r, hr, -⟩ := h
    exact Option.not_mem_none r hr
  rw [if_neg hs]
  have hlo : (if a.min ≤ b.min then b.min else a.min).toNat = a.min.toNat ⊔ b.min.toNat := by
    split_ifs with h <;> rw [BitVec.le_def] at h <;> omega
  have hhi : (if a.max ≤ b.max then a.max else b.max).toNat = a.max.toNat ⊓ b.max.toNat := by
    split_ifs with h <;> rw [BitVec.le_def] at h <;> omega
  dsimp only
  generalize (if a.min ≤ b.min then b.min else a.min) = lo at hlo ⊢
  generalize (if a.max ≤ b.max then a.max else b.max) = hi at hhi ⊢
  have hs : a.space = b.space := not_not.mp hs
  by_cases hle : lo ≤ hi
  · rw [dif_pos hle]
    simp only [Option.mem_def, Option.some.injEq, exists_eq_left', Contains, hs, BitVec.le_def]
    delta SpaceId
    omega
  · rw [dif_neg hle]
    rw [BitVec.le_def] at hle
    refine iff_of_false (fun h => ?_) fun h => ?_
    · obtain ⟨r, hr, -⟩ := h
      exact Option.not_mem_none r hr
    · obtain ⟨⟨-, ha, ha'⟩, -, hb, hb'⟩ := h
      rw [BitVec.le_def] at ha ha' hb hb'
      omega

theorem Before.endsBefore {a b : AddressRange} (h : a.Before b) : a.EndsBefore b := by
  unfold Before at h
  unfold EndsBefore
  rw [BitVec.lt_def]
  delta SpaceId at *
  omega

/-- Where one range ends before another they have nothing in common. -/
theorem EndsBefore.not_both {a b : AddressRange} (h : a.EndsBefore b) {x : Address}
    (ha : a.Contains x) (hb : b.Contains x) : False := by
  obtain ⟨hsa, -, hle⟩ := ha
  obtain ⟨hsb, hge, -⟩ := hb
  unfold EndsBefore at h
  rw [BitVec.lt_def] at h
  rw [BitVec.le_def] at hle hge
  delta SpaceId at *
  omega

theorem EndsBefore.trans_before {a b c : AddressRange} (h : a.EndsBefore b) (h' : b.Before c) :
    a.EndsBefore c := by
  have hb := BitVec.le_def.mp b.le
  unfold Before at h'
  unfold EndsBefore at *
  rw [BitVec.lt_def] at *
  delta SpaceId at *
  omega

/-- Ranges of which none ends before the other overlap. -/
theorem exists_common {a b : AddressRange} (h : ¬ a.EndsBefore b) (h' : ¬ b.EndsBefore a) :
    ∃ x, a.Contains x ∧ b.Contains x := by
  have ha := BitVec.le_def.mp a.le
  have hb := BitVec.le_def.mp b.le
  unfold EndsBefore at h h'
  rw [BitVec.lt_def] at h h'
  have hs : a.space = b.space := by
    delta SpaceId at *
    omega
  by_cases hle : a.min.toNat ≤ b.min.toNat
  · refine ⟨⟨b.space, b.min⟩, ⟨hs, hle, ?_⟩, rfl, le_refl b.min.toNat, hb⟩
    rw [BitVec.le_def]
    dsimp only
    delta SpaceId at *
    omega
  · refine ⟨⟨a.space, a.min⟩, ⟨rfl, le_refl a.min.toNat, ha⟩, hs.symm, ?_, ?_⟩
    · exact Nat.le_of_not_le hle
    · rw [BitVec.le_def]
      dsimp only
      delta SpaceId at *
      omega

end AddressRange

namespace AddressSet
open AddressRange

def add (s : AddressSet) (a : Address) : AddressSet :=
  s.addRange ⟨a.space, a.offset, a.offset, BitVec.le_def.mpr le_rfl⟩

/-- In-place union. -/
def extend (s t : AddressSet) : AddressSet := t.ranges.foldl addRange s

def contains (s : AddressSet) (a : Address) : Bool :=
  s.ranges.any fun r => r.space = a.space ∧ r.min ≤ a.offset ∧ a.offset ≤ r.max

def intersect (s t : AddressSet) : AddressSet :=
  s.ranges.foldl (fun out a => t.ranges.foldl (fun out b => (a.meet b).elim out out.addRange) out)
    empty

/-- The walk along two lists, always past the range that ends first. -/
def overlaps : List AddressRange → List AddressRange → Bool
  | a :: l, b :: l' =>
    if a.EndsBefore b then overlaps l (b :: l')
    else if b.EndsBefore a then overlaps (a :: l) l'
    else true
  | _, _ => false
termination_by l l' => l.length + l'.length

def intersects (s t : AddressSet) : Bool := overlaps s.ranges t.ranges

/-- The ranges that overlap `a`, by their start. -/
def cutters (t : AddressSet) (a : AddressRange) : List AddressRange :=
  (t.ranges.filter fun b => b.space = a.space ∧ a.min ≤ b.max ∧ b.min ≤ a.max).mergeSort
    fun b b' => b.min ≤ b'.min

theorem toNat_sub_one {cur stop : U64} (h : cur < stop) : (stop - 1).toNat = stop.toNat - 1 := by
  have hlt := stop.isLt
  rw [BitVec.lt_def] at h
  rw [BitVec.toNat_sub]
  change (2 ^ 64 - 1 + stop.toNat) % 2 ^ 64 = _
  omega

/-- The addresses from `cur` on are added, up to `stop` and without it. -/
def addUpTo (out : AddressSet) (space : SpaceId) (cur stop : U64) : AddressSet :=
  if h : cur < stop then
    out.addRange ⟨space, cur, stop - 1, by
      rw [BitVec.le_def, toNat_sub_one h]
      exact Nat.le_sub_one_of_lt (BitVec.lt_def.mp h)⟩
  else out

/-- What the cutters leave of `a` from `cur` on is added. -/
def subtractFrom (a : AddressRange) (cur : U64) (out : AddressSet) :
    List AddressRange → AddressSet
  | [] => if h : cur ≤ a.max then out.addRange ⟨a.space, cur, a.max, h⟩ else out
  | b :: bs =>
    let bmin := if a.min ≤ b.min then b.min else a.min
    let bmax := if b.max ≤ a.max then b.max else a.max
    let out := out.addUpTo a.space cur bmin
    if a.max ≤ bmax then out
    else subtractFrom a (if cur ≤ bmax + 1 then bmax + 1 else cur) out bs

def subtract (s t : AddressSet) : AddressSet :=
  s.ranges.foldl (fun out a => subtractFrom a a.min out (t.cutters a)) empty

def xor (s t : AddressSet) : AddressSet := (s.subtract t).union (t.subtract s)

def hasSameAddresses (s t : AddressSet) : Bool := s.ranges = t.ranges

variable {s t : AddressSet} {x : Address}

@[simp] theorem mem_add {a : Address} : x ∈ s.add a ↔ x = a ∨ x ∈ s := by
  rw [add, mem_addRange]
  refine or_congr_left ?_
  constructor
  · rintro ⟨hs, hlo, hhi⟩
    have hoff : a.offset = x.offset := BitVec.eq_of_toNat_eq (le_antisymm hlo hhi)
    cases x
    cases a
    exact congrArg₂ _ hs.symm hoff.symm
  · rintro rfl
    exact ⟨rfl, le_refl x.offset.toNat, le_refl x.offset.toNat⟩

@[simp] theorem mem_extend : x ∈ s.extend t ↔ x ∈ s ∨ x ∈ t := mem_union

theorem contains_iff : s.contains x = true ↔ x ∈ s := by
  unfold contains
  rw [List.any_eq_true]
  exact exists_congr fun r => and_congr_right fun _ => decide_eq_true_iff

/-- A fold that adds at each element adds what any of them adds. -/
theorem mem_foldl {α : Type} {f : AddressSet → α → AddressSet} {P : α → Prop}
    {l : List α} (hf : ∀ out, ∀ r ∈ l, x ∈ f out r ↔ x ∈ out ∨ P r) (out : AddressSet) :
    x ∈ l.foldl f out ↔ x ∈ out ∨ ∃ r ∈ l, P r := by
  induction l generalizing out with
  | nil => simp
  | cons r rs ih =>
    rw [List.foldl_cons, ih fun out q hq => hf out q (List.mem_cons_of_mem _ hq),
      hf out r List.mem_cons_self, List.exists_mem_cons_iff, or_assoc]

@[simp] theorem mem_intersect : x ∈ s.intersect t ↔ x ∈ s ∧ x ∈ t := by
  have hinner : ∀ (a : AddressRange) (out : AddressSet),
      x ∈ t.ranges.foldl (fun out b => (a.meet b).elim out out.addRange) out ↔
        x ∈ out ∨ ∃ b ∈ t.ranges, a.Contains x ∧ b.Contains x := by
    intro a out
    refine mem_foldl (fun out b _ => ?_) out
    rw [← meet_contains]
    cases a.meet b with
    | none => simp
    | some r => simp [or_comm]
  unfold intersect
  rw [mem_foldl fun out a _ => hinner a out, or_iff_right (not_mem_empty x)]
  constructor
  · rintro ⟨a, ha, b, hb, hax, hbx⟩
    exact ⟨⟨a, ha, hax⟩, b, hb, hbx⟩
  · rintro ⟨⟨a, ha, hax⟩, b, hb, hbx⟩
    exact ⟨a, ha, b, hb, hax, hbx⟩

/-- The walk finds a common address if there is one: a range that ends first ends before all that
are left of the other list. -/
theorem overlaps_iff {l l' : List AddressRange} (h : l.Pairwise Before)
    (h' : l'.Pairwise Before) :
    overlaps l l' = true ↔ ∃ x, (∃ a ∈ l, a.Contains x) ∧ ∃ b ∈ l', b.Contains x := by
  fun_induction overlaps l l' with
  | case1 a l b l' hab ih =>
    rw [ih (List.pairwise_cons.mp h).2 h']
    refine exists_congr fun x => ?_
    constructor
    · rintro ⟨⟨r, hr, hx⟩, hb⟩
      exact ⟨⟨r, List.mem_cons_of_mem _ hr, hx⟩, hb⟩
    · rintro ⟨⟨r, hr, hx⟩, q, hq, hqx⟩
      obtain rfl | hr := List.mem_cons.mp hr
      · obtain rfl | hq := List.mem_cons.mp hq
        · exact absurd hqx fun hqx => hab.not_both hx hqx
        · have hbefore := hab.trans_before ((List.pairwise_cons.mp h').1 q hq)
          exact absurd hqx fun hqx => hbefore.not_both hx hqx
      · exact ⟨⟨r, hr, hx⟩, q, hq, hqx⟩
  | case2 a l b l' _ hba ih =>
    rw [ih h (List.pairwise_cons.mp h').2]
    refine exists_congr fun x => ?_
    constructor
    · rintro ⟨ha, q, hq, hqx⟩
      exact ⟨ha, q, List.mem_cons_of_mem _ hq, hqx⟩
    · rintro ⟨⟨r, hr, hx⟩, q, hq, hqx⟩
      obtain rfl | hq := List.mem_cons.mp hq
      · obtain rfl | hr := List.mem_cons.mp hr
        · exact absurd hx fun hx => hba.not_both hqx hx
        · have hbefore := hba.trans_before ((List.pairwise_cons.mp h).1 r hr)
          exact absurd hx fun hx => hbefore.not_both hqx hx
      · exact ⟨⟨r, hr, hx⟩, q, hq, hqx⟩
  | case3 a l b l' hab hba =>
    obtain ⟨x, hx, hx'⟩ := exists_common hab hba
    exact iff_of_true rfl ⟨x, ⟨a, List.mem_cons_self, hx⟩, b, List.mem_cons_self, hx'⟩
  | case4 l l' hnil =>
    refine iff_of_false Bool.false_ne_true ?_
    rintro ⟨x, ⟨a, ha, -⟩, b, hb, -⟩
    obtain ⟨a', l, rfl⟩ := List.exists_cons_of_ne_nil (List.ne_nil_of_mem ha)
    obtain ⟨b', l', rfl⟩ := List.exists_cons_of_ne_nil (List.ne_nil_of_mem hb)
    exact hnil a' l b' l' rfl rfl

theorem intersects_iff : s.intersects t = true ↔ ∃ x, x ∈ s ∧ x ∈ t :=
  overlaps_iff s.canonical t.canonical

/-! The difference. -/

/-- A cutter of `a`: of its space, and they overlap. -/
def Cuts (a b : AddressRange) : Prop := b.space = a.space ∧ a.min ≤ b.max ∧ b.min ≤ a.max

theorem mem_cutters {a b : AddressRange} : b ∈ t.cutters a ↔ b ∈ t.ranges ∧ Cuts a b := by
  unfold cutters
  rw [List.mem_mergeSort, List.mem_filter]
  exact and_congr_right fun _ => decide_eq_true_iff

theorem cutters_sorted (t : AddressSet) (a : AddressRange) :
    (t.cutters a).Pairwise fun b b' => b.min ≤ b'.min := by
  have hsorted : (t.cutters a).Pairwise fun b b' => decide (b.min ≤ b'.min) = true := by
    apply List.pairwise_mergeSort
    · intro a b c hab hbc
      exact decide_eq_true ((BitVec.le_def.mp (of_decide_eq_true hab)).trans
        (BitVec.le_def.mp (of_decide_eq_true hbc)))
    · intro a b
      rw [Bool.or_eq_true, decide_eq_true_iff, decide_eq_true_iff, BitVec.le_def, BitVec.le_def]
      exact Nat.le_total _ _
  exact hsorted.imp fun h => of_decide_eq_true h

theorem mem_addUpTo {out : AddressSet} {space : SpaceId} {cur stop : U64} :
    x ∈ out.addUpTo space cur stop ↔ x ∈ out ∨
      space = x.space ∧ cur.toNat ≤ x.offset.toNat ∧ x.offset.toNat < stop.toNat := by
  unfold addUpTo
  split_ifs with h
  · rw [mem_addRange, or_comm]
    refine or_congr_right (and_congr_right fun _ => ?_)
    rw [BitVec.le_def, BitVec.le_def, toNat_sub_one h]
    rw [BitVec.lt_def] at h
    dsimp only
    omega
  · rw [BitVec.lt_def] at h
    exact (or_iff_left fun hx => h (hx.2.1.trans_lt hx.2.2)).symm

/-- What is left of a range from `cur` on: what no cutter has. -/
theorem mem_subtractFrom {a : AddressRange} {bs : List AddressRange} {cur : U64}
    {out : AddressSet} (hcuts : ∀ b ∈ bs, Cuts a b)
    (hsorted : bs.Pairwise fun b b' => b.min ≤ b'.min) (hcur : a.min ≤ cur) :
    x ∈ subtractFrom a cur out bs ↔ x ∈ out ∨
      (a.space = x.space ∧ cur ≤ x.offset ∧ x.offset ≤ a.max) ∧ ∀ b ∈ bs, ¬ b.Contains x := by
  induction bs generalizing cur out with
  | nil =>
    unfold subtractFrom
    split_ifs with h
    · rw [mem_addRange, or_comm]
      exact or_congr_right (and_iff_left nofun).symm
    · refine (or_iff_left fun hx => h ?_).symm
      exact BitVec.le_def.mpr ((BitVec.le_def.mp hx.1.2.1).trans (BitVec.le_def.mp hx.1.2.2))
  | cons b bs ih =>
    obtain ⟨hspace, hstart, hstop⟩ := hcuts b List.mem_cons_self
    obtain ⟨hfirst, hsorted'⟩ := List.pairwise_cons.mp hsorted
    have hlo : (if a.min ≤ b.min then b.min else a.min).toNat = a.min.toNat ⊔ b.min.toNat := by
      split_ifs with h <;> rw [BitVec.le_def] at h <;> omega
    have hhi : (if b.max ≤ a.max then b.max else a.max).toNat = a.max.toNat ⊓ b.max.toNat := by
      split_ifs with h <;> rw [BitVec.le_def] at h <;> omega
    unfold subtractFrom
    generalize (if a.min ≤ b.min then b.min else a.min) = bmin at hlo ⊢
    generalize (if b.max ≤ a.max then b.max else a.max) = bmax at hhi ⊢
    rw [BitVec.le_def] at hcur hstart hstop
    have hb := BitVec.le_def.mp b.le
    -- what is in front of the cutter is in front of the others too
    have hfront : ∀ rest : Prop,
        (rest ↔ (a.space = x.space ∧ b.max.toNat < x.offset.toNat ∧
          cur.toNat ≤ x.offset.toNat ∧ x.offset.toNat ≤ a.max.toNat) ∧
            ∀ b' ∈ bs, ¬ b'.Contains x) →
        ((x ∈ out.addUpTo a.space cur bmin ∨ rest) ↔ x ∈ out ∨
          (a.space = x.space ∧ cur ≤ x.offset ∧ x.offset ≤ a.max) ∧
            ∀ b' ∈ b :: bs, ¬ b'.Contains x) := by
      intro rest hrest
      rw [mem_addUpTo, hrest, or_assoc]
      refine or_congr_right ?_
      rw [List.forall_mem_cons, BitVec.le_def, BitVec.le_def]
      constructor
      · rintro (⟨hs, hge, hlt⟩ | ⟨⟨hs, hover, hge, hle⟩, hothers⟩)
        · refine ⟨⟨hs, hge, by omega⟩, fun h => ?_, fun b' hb' h => ?_⟩
          · have hin := BitVec.le_def.mp h.2.1
            omega
          · have hnext := BitVec.le_def.mp (hfirst b' hb')
            have hin := BitVec.le_def.mp h.2.1
            omega
        · refine ⟨⟨hs, hge, hle⟩, fun h => ?_, hothers⟩
          have hin := BitVec.le_def.mp h.2.2
          omega
      · rintro ⟨⟨hs, hge, hle⟩, hnot, hothers⟩
        by_cases hlt : x.offset.toNat < b.min.toNat
        · exact .inl ⟨hs, hge, by omega⟩
        · refine .inr ⟨⟨hs, ?_, hge, hle⟩, hothers⟩
          by_contra hover
          exact hnot ⟨hspace.trans hs, BitVec.le_def.mpr (Nat.not_lt.mp hlt),
            BitVec.le_def.mpr (Nat.not_lt.mp hover)⟩
    dsimp only
    by_cases hend : a.max ≤ bmax
    · -- the cutter reaches the end of the range
      rw [if_pos hend]
      rw [BitVec.le_def] at hend
      refine (or_iff_left not_false).symm.trans ?_
      refine hfront False (iff_of_false not_false fun h => ?_)
      omega
    · rw [if_neg hend]
      rw [BitVec.le_def] at hend
      have hstep : (bmax + 1).toNat = bmax.toNat + 1 := by
        have hlt := a.max.isLt
        rw [BitVec.toNat_add]
        change (bmax.toNat + 1) % 2 ^ 64 = _
        omega
      have hnext : (if cur ≤ bmax + 1 then bmax + 1 else cur).toNat =
          cur.toNat ⊔ (b.max.toNat + 1) := by
        split_ifs with h <;> rw [BitVec.le_def, hstep] at h <;> omega
      generalize (if cur ≤ bmax + 1 then bmax + 1 else cur) = next at hnext ⊢
      rw [ih (fun b' hb' => hcuts b' (List.mem_cons_of_mem _ hb')) hsorted'
        (BitVec.le_def.mpr (by omega))]
      refine hfront _ (and_congr_left fun _ => and_congr_right fun _ => ?_)
      rw [BitVec.le_def, BitVec.le_def, hnext]
      omega

@[simp] theorem mem_subtract : x ∈ s.subtract t ↔ x ∈ s ∧ x ∉ t := by
  have hinner : ∀ (a : AddressRange) (out : AddressSet),
      x ∈ subtractFrom a a.min out (t.cutters a) ↔ x ∈ out ∨ a.Contains x ∧ x ∉ t := by
    intro a out
    rw [mem_subtractFrom (fun b hb => (mem_cutters.mp hb).2) (cutters_sorted t a)
      (BitVec.le_def.mpr le_rfl)]
    refine or_congr_right (and_congr_right fun hax => ?_)
    constructor
    · rintro h ⟨b, hb, hbx⟩
      refine h b (mem_cutters.mpr ⟨hb, hbx.1.trans hax.1.symm, ?_, ?_⟩) hbx
      · exact BitVec.le_def.mpr ((BitVec.le_def.mp hax.2.1).trans (BitVec.le_def.mp hbx.2.2))
      · exact BitVec.le_def.mpr ((BitVec.le_def.mp hbx.2.1).trans (BitVec.le_def.mp hax.2.2))
    · exact fun h b hb hbx => h ⟨b, (mem_cutters.mp hb).1, hbx⟩
  unfold subtract
  rw [mem_foldl fun out a _ => hinner a out, or_iff_right (not_mem_empty x)]
  constructor
  · rintro ⟨a, ha, hax, hx⟩
    exact ⟨⟨a, ha, hax⟩, hx⟩
  · rintro ⟨⟨a, ha, hax⟩, hx⟩
    exact ⟨a, ha, hax, hx⟩

@[simp] theorem mem_xor : x ∈ s.xor t ↔ (x ∈ s ∧ x ∉ t) ∨ x ∈ t ∧ x ∉ s := by
  rw [xor, mem_union, mem_subtract, mem_subtract]

/-! Canonical ranges are determined by their addresses. -/

/-- The first range begins with the least address. -/
theorem first_le {r : AddressRange} {l : List AddressRange} (h : (r :: l).Pairwise Before)
    (hx : ∃ q ∈ r :: l, q.Contains x) :
    r.space < x.space ∨ r.space = x.space ∧ r.min.toNat ≤ x.offset.toNat := by
  obtain ⟨q, hq, hs, hlo, -⟩ := hx
  rw [BitVec.le_def] at hlo
  obtain rfl | hq := List.mem_cons.mp hq
  · exact .inr ⟨hs, hlo⟩
  · have hbefore := (List.pairwise_cons.mp h).1 q hq
    have hle := BitVec.le_def.mp r.le
    unfold Before at hbefore
    delta SpaceId at *
    omega

/-- Right after the first range there is nothing. -/
theorem first_end {r : AddressRange} {l : List AddressRange} (h : (r :: l).Pairwise Before)
    (hs : x.space = r.space) (hx : x.offset.toNat = r.max.toNat + 1) :
    ¬ ∃ q ∈ r :: l, q.Contains x := by
  rintro ⟨q, hq, hqs, hlo, hhi⟩
  rw [BitVec.le_def] at hlo hhi
  obtain rfl | hq := List.mem_cons.mp hq
  · omega
  · have hbefore := (List.pairwise_cons.mp h).1 q hq
    unfold Before at hbefore
    delta SpaceId at *
    omega

theorem first_max_le {r r' : AddressRange} {l l' : List AddressRange}
    (h : (r :: l).Pairwise Before) (hs : r.space = r'.space) (hmin : r.min = r'.min)
    (hsame : ∀ x, (∃ q ∈ r' :: l', q.Contains x) → ∃ q ∈ r :: l, q.Contains x) :
    r'.max.toNat ≤ r.max.toNat := by
  by_contra hlt
  have hbound := r'.max.isLt
  have hnext : (r.max + 1).toNat = r.max.toNat + 1 := by
    rw [BitVec.toNat_add]
    change (r.max.toNat + 1) % 2 ^ 64 = _
    omega
  have hle := BitVec.le_def.mp r.le
  have hin : r'.Contains ⟨r.space, r.max + 1⟩ := by
    refine ⟨hs.symm, ?_, ?_⟩
    · rw [BitVec.le_def, hnext, ← hmin]
      omega
    · rw [BitVec.le_def, hnext]
      omega
  exact first_end h rfl hnext (hsame _ ⟨r', List.mem_cons_self, hin⟩)

theorem eq_of_same {l l' : List AddressRange} (h : l.Pairwise Before) (h' : l'.Pairwise Before)
    (hsame : ∀ x, (∃ r ∈ l, r.Contains x) ↔ ∃ r ∈ l', r.Contains x) : l = l' := by
  induction l generalizing l' with
  | nil =>
    cases l' with
    | nil => rfl
    | cons r' l' =>
      obtain ⟨r, hr, -⟩ := (hsame ⟨r'.space, r'.min⟩).mpr
        ⟨r', List.mem_cons_self, rfl, le_refl r'.min.toNat, r'.le⟩
      exact absurd hr List.not_mem_nil
  | cons r l ih =>
    have hr : r.Contains ⟨r.space, r.min⟩ := ⟨rfl, le_refl r.min.toNat, r.le⟩
    cases l' with
    | nil =>
      obtain ⟨q, hq, -⟩ := (hsame ⟨r.space, r.min⟩).mp ⟨r, List.mem_cons_self, hr⟩
      exact absurd hq List.not_mem_nil
    | cons r' l' =>
      have hr' : r'.Contains ⟨r'.space, r'.min⟩ := ⟨rfl, le_refl r'.min.toNat, r'.le⟩
      have hfirst := first_le h' ((hsame _).mp ⟨r, List.mem_cons_self, hr⟩)
      have hfirst' := first_le h ((hsame _).mpr ⟨r', List.mem_cons_self, hr'⟩)
      dsimp only at hfirst hfirst'
      have hs : r.space = r'.space := by
        delta SpaceId at *
        omega
      have hmin : r.min = r'.min := by
        apply BitVec.eq_of_toNat_eq
        delta SpaceId at *
        omega
      have hmax : r.max = r'.max := by
        apply BitVec.eq_of_toNat_eq
        apply le_antisymm
        · exact first_max_le h' hs.symm hmin.symm fun x => (hsame x).mp
        · exact first_max_le h hs hmin fun x => (hsame x).mpr
      have heq : r = r' := by
        cases r
        cases r'
        cases hs
        cases hmin
        cases hmax
        rfl
      subst heq
      refine congrArg (r :: ·) (ih (List.pairwise_cons.mp h).2 (List.pairwise_cons.mp h').2 ?_)
      -- what is in the tail is not in the first range
      have htail : ∀ {l : List AddressRange} {x : Address}, (r :: l).Pairwise Before →
          ((∃ q ∈ l, q.Contains x) ↔ (∃ q ∈ r :: l, q.Contains x) ∧ ¬ r.Contains x) := by
        intro l x hl
        constructor
        · rintro ⟨q, hq, hqx⟩
          refine ⟨⟨q, List.mem_cons_of_mem _ hq, hqx⟩, fun hrx => ?_⟩
          exact ((List.pairwise_cons.mp hl).1 q hq).endsBefore.not_both hrx hqx
        · rintro ⟨⟨q, hq, hqx⟩, hrx⟩
          obtain rfl | hq := List.mem_cons.mp hq
          · exact absurd hqx hrx
          · exact ⟨q, hq, hqx⟩
      intro x
      rw [htail h, htail h', hsame]

theorem hasSameAddresses_iff : s.hasSameAddresses t = true ↔ ∀ x, x ∈ s ↔ x ∈ t := by
  refine decide_eq_true_iff.trans ⟨fun h x => ?_, eq_of_same s.canonical t.canonical⟩
  rw [mem_def, mem_def, h]

/-- What is built with the operations. -/
inductive Expr
  | new
  | addRange (e : Expr) (r : AddressRange)
  | add (e : Expr) (a : Address)
  | union (e f : Expr)
  | extend (e f : Expr)
  | intersect (e f : Expr)
  | subtract (e f : Expr)
  | xor (e f : Expr)

/-- The set that the operations build. -/
def Expr.eval : Expr → AddressSet
  | new => empty
  | addRange e r => e.eval.addRange r
  | add e a => e.eval.add a
  | union e f => e.eval.union f.eval
  | extend e f => e.eval.extend f.eval
  | intersect e f => e.eval.intersect f.eval
  | subtract e f => e.eval.subtract f.eval
  | xor e f => e.eval.xor f.eval

/-- The addresses that the operations mean. -/
def Expr.addresses : Expr → Set Address
  | new => ∅
  | addRange e r => e.addresses ∪ {x | r.Contains x}
  | add e a => insert a e.addresses
  | union e f => e.addresses ∪ f.addresses
  | extend e f => e.addresses ∪ f.addresses
  | intersect e f => e.addresses ∩ f.addresses
  | subtract e f => e.addresses \ f.addresses
  | xor e f => symmDiff e.addresses f.addresses

theorem Expr.mem_eval (e : Expr) (x : Address) : x ∈ e.eval ↔ x ∈ e.addresses := by
  induction e with
  | new => exact iff_of_false (not_mem_empty x) (Set.notMem_empty x)
  | addRange e r ih => rw [eval, mem_addRange, ih, or_comm]; rfl
  | add e a ih => rw [eval, mem_add, ih]; rfl
  | union e f ihe ihf => rw [eval, mem_union, ihe, ihf]; rfl
  | extend e f ihe ihf => rw [eval, mem_extend, ihe, ihf]; rfl
  | intersect e f ihe ihf => rw [eval, mem_intersect, ihe, ihf]; rfl
  | subtract e f ihe ihf => rw [eval, mem_subtract, ihe, ihf]; rfl
  | xor e f ihe ihf => rw [eval, mem_xor, ihe, ihf]; rfl

/-- However sets are built, their ranges are in order with gaps between them, they hold the
addresses that the operations mean, and the two tests on them answer for these. -/
theorem operations_canonical (e f : Expr) :
    e.eval.ranges.Pairwise Before ∧ (∀ x, e.eval.contains x = true ↔ x ∈ e.addresses) ∧
      (e.eval.intersects f.eval = true ↔ (e.addresses ∩ f.addresses).Nonempty) ∧
        (e.eval.hasSameAddresses f.eval = true ↔ e.addresses = f.addresses) := by
  refine ⟨e.eval.canonical, fun x => contains_iff.trans (e.mem_eval x), ?_, ?_⟩
  · rw [intersects_iff]
    exact exists_congr fun x => and_congr (e.mem_eval x) (f.mem_eval x)
  · rw [hasSameAddresses_iff, Set.ext_iff]
    exact forall_congr' fun x => iff_congr (e.mem_eval x) (f.mem_eval x)

end AddressSet
end Mosura
