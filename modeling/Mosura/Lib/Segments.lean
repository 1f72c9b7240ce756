import Mathlib

/-! Consecutive segments: which one a position is in, and what a range of positions cuts out of
them. -/

namespace Mosura
namespace Lib

variable {α β : Type*}

section Extent

variable (size : α → ℕ)

/-- How long the segments are together. -/
def extent (l : List α) : ℕ := (l.map size).sum

variable {size}

@[simp]
theorem extent_nil : extent size [] = 0 := rfl

@[simp]
theorem extent_cons (x : α) (l : List α) : extent size (x :: l) = size x + extent size l := by
  rw [extent, List.map_cons, List.sum_cons, extent]

@[simp]
theorem extent_append (l l' : List α) :
    extent size (l ++ l') = extent size l + extent size l' := by
  rw [extent, List.map_append, List.sum_append, extent, extent]

@[simp]
theorem extent_reverse (l : List α) : extent size l.reverse = extent size l := by
  rw [extent, List.map_reverse, List.sum_reverse, extent]

/-- Of two positions in order, the first is in the same segment as the second or in one before. -/
theorem segments_le {l pre post pre' post' : List α} {x y : α} {k k' : ℕ}
    (h : l = pre ++ x :: post) (h' : l = pre' ++ y :: post') (hk : extent size pre ≤ k)
    (hk' : k' < extent size pre' + size y) (hle : k ≤ k') :
    (pre = pre' ∧ x = y ∧ post = post') ∨
      ∃ mid, pre' = pre ++ x :: mid ∧ post = mid ++ y :: post' := by
  obtain ⟨mid, hpre, hpost⟩ | ⟨mid, hpre, hpost⟩ := List.append_eq_append_iff.mp (h.symm.trans h')
  · cases mid with
    | nil =>
      obtain ⟨hxy, hpost⟩ := List.cons.inj hpost
      exact .inl ⟨by rw [hpre, List.append_nil], hxy, hpost⟩
    | cons z mid =>
      obtain ⟨rfl, htail⟩ := List.cons.inj hpost
      exact .inr ⟨mid, hpre, htail⟩
  · cases mid with
    | nil =>
      obtain ⟨hxy, hpost⟩ := List.cons.inj hpost
      exact .inl ⟨by rw [hpre, List.append_nil], hxy.symm, hpost.symm⟩
    | cons z mid =>
      obtain ⟨rfl, -⟩ := List.cons.inj hpost
      rw [hpre, extent_append, extent_cons] at hk
      omega

end Extent

section Cut

variable {f : α → List β}

theorem length_flatMap_eq (l : List α) :
    (l.flatMap f).length = extent (fun x => (f x).length) l := List.length_flatMap

/-- A range inside one segment. -/
theorem cut_one {pre post : List α} {x : α} {a n : ℕ} (h : a + n ≤ (f x).length) :
    (((pre ++ x :: post).flatMap f).drop ((pre.flatMap f).length + a)).take n =
      ((f x).drop a).take n := by
  rw [List.flatMap_append, List.flatMap_cons, List.drop_length_add_append,
    List.drop_append_of_le_length (by omega), List.take_append_of_le_length]
  rw [List.length_drop]
  omega

/-- A range from one segment to a later one: the end of the first, all between, and the beginning
of the last. -/
theorem cut_two (pre mid post : List α) {x y : α} {a n : ℕ} (ha : a ≤ (f x).length)
    (hn : n ≤ (f y).length) :
    (((pre ++ x :: (mid ++ y :: post)).flatMap f).drop ((pre.flatMap f).length + a)).take
        ((f x).length - a + ((mid.flatMap f).length + n)) =
      (f x).drop a ++ (mid.flatMap f ++ (f y).take n) := by
  have hfirst : ((f x).drop a).length = (f x).length - a := List.length_drop
  rw [List.flatMap_append, List.flatMap_cons, List.flatMap_append, List.flatMap_cons,
    List.drop_length_add_append, List.drop_append_of_le_length ha, ← hfirst,
    List.take_length_add_append, List.take_length_add_append, List.take_append_of_le_length hn]

end Cut

end Lib
end Mosura
