import Mosura.Space

/-! Sets of addresses (`address_set.rs`): sorted, pairwise apart, inclusive ranges. -/

namespace Mosura

structure AddressRange where
  space : SpaceId
  min : U64
  max : U64
  le : min ≤ max
  deriving DecidableEq, Repr

namespace AddressRange

def Contains (r : AddressRange) (a : Address) : Prop :=
  r.space = a.space ∧ r.min ≤ a.offset ∧ a.offset ≤ r.max

instance (r : AddressRange) (a : Address) : Decidable (r.Contains a) :=
  inferInstanceAs (Decidable (r.space = a.space ∧ r.min ≤ a.offset ∧ a.offset ≤ r.max))

/-- The `(space, min)` order of the ranges of a set. -/
def KeyLt (r r' : AddressRange) : Prop := r.space < r'.space ∨ r.space = r'.space ∧ r.min < r'.min

instance (r r' : AddressRange) : Decidable (r.KeyLt r') :=
  inferInstanceAs (Decidable (r.space < r'.space ∨ r.space = r'.space ∧ r.min < r'.min))

/-- Two ranges of one space overlap or are adjacent. Neither sum wraps: its left side is below the
right range. -/
def touchesOrOverlaps (a b : AddressRange) : Bool :=
  decide (a.min ≤ b.max ∧ b.min ≤ a.max) || decide (a.max < b.min ∧ a.max + 1 = b.min) ||
    decide (b.max < a.min ∧ b.max + 1 = a.min)

/-- `new` grown to reach over `r` as well. -/
def hull (new r : AddressRange) : AddressRange where
  space := new.space
  min := if new.min ≤ r.min then new.min else r.min
  max := if r.max ≤ new.max then new.max else r.max
  le := by
    have hn := BitVec.le_def.mp new.le
    simp only [BitVec.le_def]
    split_ifs <;> omega

/-- `a` lies before `b`, with a gap between them. -/
def Before (a b : AddressRange) : Prop :=
  a.space < b.space ∨ a.space = b.space ∧ a.max.toNat + 1 < b.min.toNat

theorem Before.trans {a b c : AddressRange} (h : a.Before b) (h' : b.Before c) : a.Before c := by
  have hb := BitVec.le_def.mp b.le
  unfold Before at *
  delta SpaceId at *
  omega

theorem Before.keyLt {a b : AddressRange} (h : a.Before b) : a.KeyLt b := by
  have ha := BitVec.le_def.mp a.le
  unfold Before at h
  unfold KeyLt
  rw [BitVec.lt_def]
  delta SpaceId at *
  omega

theorem Before.trans_keyLt {a b c : AddressRange} (h : a.Before b) (h' : b.KeyLt c) :
    a.Before c := by
  unfold Before KeyLt at *
  rw [BitVec.lt_def] at h'
  delta SpaceId at *
  omega

theorem KeyLt.not_before {a b : AddressRange} (h : a.KeyLt b) : ¬b.Before a := by
  intro hb
  have hk := hb.keyLt
  unfold KeyLt at *
  rw [BitVec.lt_def] at *
  delta SpaceId at *
  omega

theorem touchesOrOverlaps_iff {a b : AddressRange} :
    a.touchesOrOverlaps b = true ↔
      a.min.toNat ≤ b.max.toNat + 1 ∧ b.min.toNat ≤ a.max.toNat + 1 := by
  have ha := BitVec.le_def.mp a.le
  have hb := BitVec.le_def.mp b.le
  have hlt := a.max.isLt
  have hlt' := b.max.isLt
  have hlt'' := a.min.isLt
  have hlt''' := b.min.isLt
  simp only [touchesOrOverlaps, Bool.or_eq_true, decide_eq_true_eq, BitVec.le_def, BitVec.lt_def,
    ← BitVec.toNat_inj, BitVec.toNat_add, show (1 : U64).toNat = 1 from rfl]
  omega

/-- Two ranges touch, or one lies before the other. -/
theorem before_or_touches (a b : AddressRange) :
    a.Before b ∨ b.Before a ∨ a.space = b.space ∧ a.touchesOrOverlaps b = true := by
  have ha := BitVec.le_def.mp a.le
  have hb := BitVec.le_def.mp b.le
  rw [touchesOrOverlaps_iff]
  unfold Before
  delta SpaceId
  omega

theorem not_before_of_touches {a b : AddressRange} (hs : a.space = b.space)
    (h : a.touchesOrOverlaps b = true) : ¬a.Before b := by
  rw [touchesOrOverlaps_iff] at h
  unfold Before
  delta SpaceId at *
  omega

theorem hull_contains {new r : AddressRange} (hs : r.space = new.space)
    (ht : r.touchesOrOverlaps new = true) (a : Address) :
    (new.hull r).Contains a ↔ new.Contains a ∨ r.Contains a := by
  have hn := BitVec.le_def.mp new.le
  have hr := BitVec.le_def.mp r.le
  rw [touchesOrOverlaps_iff] at ht
  simp only [Contains, hull, BitVec.le_def, hs, ← and_or_left]
  refine and_congr_right fun _ => ?_
  split_ifs <;> omega

theorem Before.hull_right {a new r : AddressRange} (h : a.Before new) (h' : a.Before r)
    (hs : r.space = new.space) : a.Before (new.hull r) := by
  have hmin : (new.hull r).min = new.min ∨ (new.hull r).min = r.min := by
    unfold hull
    split_ifs <;> simp
  rcases hmin with hmin | hmin
  · unfold Before at *
    rw [hmin]
    exact h
  · unfold Before at *
    rw [hmin]
    change a.space < new.space ∨ a.space = new.space ∧ _
    rw [← hs]
    exact h'

theorem Before.of_hull_right {a new r : AddressRange} (h : a.Before (new.hull r)) :
    a.Before new := by
  have hle : (new.hull r).min.toNat ≤ new.min.toNat := by
    simp only [hull, BitVec.le_def]
    split_ifs <;> omega
  unfold Before at *
  change a.space < new.space ∨ a.space = new.space ∧ _ at h
  delta SpaceId at *
  omega

end AddressRange

/-- The ranges are sorted and no two of them touch. -/
structure AddressSet where
  ranges : List AddressRange
  canonical : ranges.Pairwise AddressRange.Before

namespace AddressSet
open AddressRange

@[ext] theorem ext {s t : AddressSet} (h : s.ranges = t.ranges) : s = t := by
  cases s
  cases t
  congr

def empty : AddressSet := ⟨[], .nil⟩

instance : Inhabited AddressSet := ⟨empty⟩

def isEmpty (s : AddressSet) : Bool := s.ranges.isEmpty

instance : Membership Address AddressSet := ⟨fun s a => ∃ r ∈ s.ranges, r.Contains a⟩

theorem mem_def {s : AddressSet} {a : Address} : a ∈ s ↔ ∃ r ∈ s.ranges, r.Contains a := Iff.rfl

instance (s : AddressSet) (a : Address) : Decidable (a ∈ s) :=
  inferInstanceAs (Decidable (∃ r ∈ s.ranges, r.Contains a))

@[simp] theorem not_mem_empty (a : Address) : a ∉ empty := by
  rintro ⟨r, hr, -⟩
  cases hr

@[simp] theorem isEmpty_empty : empty.isEmpty = true := rfl

theorem isEmpty_iff {s : AddressSet} : s.isEmpty = true ↔ ∀ a, a ∉ s := by
  unfold isEmpty
  rw [List.isEmpty_iff]
  constructor
  · rintro h a ⟨r, hr, -⟩
    rw [h] at hr
    cases hr
  · intro h
    match hl : s.ranges with
    | [] => rfl
    | r :: rs =>
      refine absurd ?_ (h ⟨r.space, r.min⟩)
      exact ⟨r, hl ▸ List.mem_cons_self, rfl, BitVec.le_def.mpr le_rfl, r.le⟩

/-- The run of ranges that touch the growing `new` is merged into it. -/
def absorb (new : AddressRange) : List AddressRange → AddressRange × List AddressRange
  | [] => (new, [])
  | r :: rs =>
    if r.space = new.space ∧ r.touchesOrOverlaps new = true then absorb (new.hull r) rs
    else (new, r :: rs)

/-- The ranges ahead of the place of `new`, and those from it on: the last range with a smaller
key belongs to the second part if it reaches `new`. -/
def splitAt (new : AddressRange) (ranges : List AddressRange) :
    List AddressRange × List AddressRange :=
  let before := ranges.takeWhile (KeyLt · new)
  let after := ranges.dropWhile (KeyLt · new)
  match before.getLast? with
  | none => (before, after)
  | some prev =>
    if prev.space = new.space ∧ prev.touchesOrOverlaps new = true then
      (before.dropLast, prev :: after)
    else (before, after)

theorem splitAt_append (new : AddressRange) (ranges : List AddressRange) :
    (splitAt new ranges).1 ++ (splitAt new ranges).2 = ranges := by
  cases hp : (ranges.takeWhile (KeyLt · new)).getLast? with
  | none => simp only [splitAt, hp, List.takeWhile_append_dropWhile]
  | some prev =>
    simp only [splitAt, hp]
    split_ifs
    · change _ ++ ([prev] ++ _) = ranges
      rw [← List.append_assoc, List.dropLast_append_getLast? prev hp,
        List.takeWhile_append_dropWhile]
    · exact List.takeWhile_append_dropWhile

theorem absorb_contains (a : Address) (l : List AddressRange) (new : AddressRange) :
    ((absorb new l).1.Contains a ∨ ∃ r ∈ (absorb new l).2, r.Contains a) ↔
      new.Contains a ∨ ∃ r ∈ l, r.Contains a := by
  induction l generalizing new with
  | nil => rfl
  | cons r rs ih =>
    unfold absorb
    split_ifs with h
    · rw [ih, hull_contains h.1 h.2 a]
      simp only [List.mem_cons, exists_eq_or_imp, or_assoc]
    · rfl

/-- What `absorb` leaves lies after the grown range, which stays clear of all that was clear of
`new` and of the list. -/
theorem absorb_before (l : List AddressRange) (new : AddressRange)
    (hl : l.Pairwise Before) (hnew : ∀ r ∈ l, ¬r.Before new) :
    (∀ r ∈ (absorb new l).2, (absorb new l).1.Before r) ∧ (absorb new l).2 <:+ l ∧
      ∀ a : AddressRange, a.Before new → (∀ r ∈ l, a.Before r) → a.Before (absorb new l).1 := by
  induction l generalizing new with
  | nil => exact ⟨nofun, List.suffix_refl _, fun a h _ => h⟩
  | cons r rs ih =>
    obtain ⟨hr, hrs⟩ := List.pairwise_cons.mp hl
    unfold absorb
    split_ifs with h
    · obtain ⟨h1, h2, h3⟩ := ih (new.hull r) hrs fun r' hr' hb =>
        hnew r' (List.mem_cons_of_mem _ hr') hb.of_hull_right
      refine ⟨h1, h2.trans (List.suffix_cons _ _), fun a ha hall => h3 a ?_ fun r' hr' => ?_⟩
      · exact ha.hull_right (hall r List.mem_cons_self) h.1
      · exact hall r' (List.mem_cons_of_mem _ hr')
    · have hbr : new.Before r := by
        rcases before_or_touches r new with hb | hb | hb
        · exact absurd hb (hnew r List.mem_cons_self)
        · exact hb
        · exact absurd hb h
      refine ⟨fun r' hr' => ?_, List.suffix_refl _, fun a ha _ => ha⟩
      rcases List.mem_cons.mp hr' with rfl | hr'
      · exact hbr
      · exact hbr.trans (hr r' hr')

/-- All ranges of the first part are clear of `new`, none of the second part lies before it. -/
theorem splitAt_before (new : AddressRange) (ranges : List AddressRange)
    (hl : ranges.Pairwise Before) :
    (∀ r ∈ (splitAt new ranges).1, r.Before new) ∧
      ∀ r ∈ (splitAt new ranges).2, ¬r.Before new := by
  have hall := List.takeWhile_append_dropWhile (p := (KeyLt · new)) (l := ranges)
  have hkey : ∀ r ∈ ranges.takeWhile (KeyLt · new), r.KeyLt new := fun r hr => by
    simpa using List.mem_takeWhile_imp hr
  have hafter : ∀ r ∈ ranges.dropWhile (KeyLt · new), ¬r.Before new := by
    intro r hr hb
    match hd : ranges.dropWhile (KeyLt · new) with
    | [] =>
      rw [hd] at hr
      cases hr
    | r' :: rs =>
      have hsub : (r' :: rs).Pairwise Before := hd ▸ hl.sublist (List.dropWhile_sublist _)
      have hhead : ¬r'.KeyLt new := by
        have hne := List.head_dropWhile_not (KeyLt · new) (l := ranges) (by rw [hd]; nofun)
        simpa [hd] using hne
      rw [hd] at hr
      rcases List.mem_cons.mp hr with rfl | hr
      · exact hhead hb.keyLt
      · exact hhead (((List.pairwise_cons.mp hsub).1 r hr).trans hb).keyLt
  cases hp : (ranges.takeWhile (KeyLt · new)).getLast? with
  | none =>
    simp only [splitAt, hp]
    rw [List.getLast?_eq_none_iff] at hp
    refine ⟨fun r hr => ?_, hafter⟩
    rw [hp] at hr
    cases hr
  | some prev =>
    have hbefore := List.dropLast_append_getLast? prev hp
    have hpair : (ranges.takeWhile (KeyLt · new)).Pairwise Before :=
      hl.sublist (List.takeWhile_sublist _)
    rw [← hbefore, List.pairwise_append] at hpair
    have hlast : ∀ r ∈ (ranges.takeWhile (KeyLt · new)).dropLast, r.Before prev := fun r hr =>
      hpair.2.2 r hr prev List.mem_cons_self
    have hprev : prev.KeyLt new := hkey prev (List.mem_of_getLast? hp)
    simp only [splitAt, hp]
    split_ifs with h
    · refine ⟨fun r hr => ?_, fun r hr => ?_⟩
      · -- `r` ends before `prev`, and `prev` starts no later than `new`
        exact (hlast r hr).trans_keyLt hprev
      · rcases List.mem_cons.mp hr with rfl | hr
        · exact not_before_of_touches h.1 h.2
        · exact hafter r hr
    · refine ⟨fun r hr => ?_, hafter⟩
      have hb : prev.Before new := by
        rcases before_or_touches prev new with hb | hb | hb
        · exact hb
        · exact absurd hb hprev.not_before
        · exact absurd hb h
      rw [← hbefore] at hr
      rcases List.mem_append.mp hr with hr | hr
      · exact (hlast r hr).trans hb
      · rw [List.mem_singleton.mp hr]
        exact hb

/-- Add an inclusive range, merged with the ranges it touches. -/
def addRange (s : AddressSet) (new : AddressRange) : AddressSet where
  ranges :=
    let parts := splitAt new s.ranges
    let merged := absorb new parts.2
    parts.1 ++ merged.1 :: merged.2
  canonical := by
    have happ := splitAt_append new s.ranges
    obtain ⟨hb, ha⟩ := splitAt_before new s.ranges s.canonical
    have hs := s.canonical
    rw [← happ, List.pairwise_append] at hs
    obtain ⟨h1, h2, h3⟩ := absorb_before _ new hs.2.1 ha
    refine List.pairwise_append.mpr ⟨hs.1, List.pairwise_cons.mpr ⟨h1, ?_⟩, fun r hr r' hr' => ?_⟩
    · exact hs.2.1.sublist h2.sublist
    · rcases List.mem_cons.mp hr' with rfl | hr'
      · exact h3 r (hb r hr) (hs.2.2 r hr)
      · exact hs.2.2 r hr r' (h2.subset hr')

@[simp] theorem mem_addRange {s : AddressSet} {new : AddressRange} {a : Address} :
    a ∈ s.addRange new ↔ new.Contains a ∨ a ∈ s := by
  have h := absorb_contains a (splitAt new s.ranges).2 new
  have happ := splitAt_append new s.ranges
  rw [mem_def, mem_def, ← happ]
  simp only [addRange, List.mem_append, List.mem_cons, or_and_right, exists_or, exists_eq_left]
  constructor
  · rintro (h' | h')
    · exact .inr (.inl h')
    · exact (h.mp h').imp_right .inr
  · rintro (h' | h' | h')
    · exact .inr (h.mpr (.inl h'))
    · exact .inl h'
    · exact .inr (h.mpr (.inr h'))

def union (s t : AddressSet) : AddressSet := t.ranges.foldl addRange s

@[simp] theorem mem_union {s t : AddressSet} {a : Address} : a ∈ s.union t ↔ a ∈ s ∨ a ∈ t := by
  have hfold : ∀ (l : List AddressRange) (s : AddressSet),
      a ∈ l.foldl addRange s ↔ a ∈ s ∨ ∃ r ∈ l, r.Contains a := by
    intro l
    induction l with
    | nil => simp
    | cons r rs ih =>
      intro s
      rw [List.foldl_cons, ih, mem_addRange]
      simp only [List.mem_cons, exists_eq_or_imp]
      tauto
  exact hfold t.ranges s

end AddressSet
end Mosura
