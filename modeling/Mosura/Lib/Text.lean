import Mathlib

/-! Texts as lists of characters: trimming, and the parts between separators. -/

namespace Mosura
namespace Lib

abbrev Text := List Char

/-- A literal is the text of its characters. -/
instance : Coe String Text := ⟨String.toList⟩

/-- The Unicode property `White_Space`. -/
def isWhitespace (c : Char) : Bool :=
  let n := c.toNat
  (9 ≤ n && n ≤ 13) || (0x2000 ≤ n && n ≤ 0x200a) ||
    n ∈ [0x20, 0x85, 0xa0, 0x1680, 0x2028, 0x2029, 0x202f, 0x205f, 0x3000]

def trim (t : Text) : Text := (t.dropWhile isWhitespace).rdropWhile isWhitespace

namespace Text

variable {t u : Text} {c s : Char}

/-- No whitespace at either end. -/
structure Trimmed (t : Text) : Prop where
  head : ∀ c ∈ t.head?, isWhitespace c = false
  last : ∀ c ∈ t.getLast?, isWhitespace c = false

theorem trim_subset (t : Text) : trim t ⊆ t := fun _ h =>
  List.dropWhile_subset _ ((List.rdropWhile_prefix _ _).subset h)

/-- What is no whitespace stays. -/
theorem mem_trim (h : c ∈ t) (hc : isWhitespace c = false) : c ∈ trim t := by
  have hdrop : ∀ {l : Text}, c ∈ l → c ∈ l.dropWhile isWhitespace := by
    intro l hl
    rw [← List.takeWhile_append_dropWhile (p := isWhitespace) (l := l)] at hl
    obtain htake | hrest := List.mem_append.mp hl
    · exact absurd (List.mem_takeWhile_imp htake) (by rw [hc]; decide)
    · exact hrest
  unfold trim List.rdropWhile
  exact List.mem_reverse.mpr (hdrop (List.mem_reverse.mpr (hdrop h)))

theorem trim_eq_self (h : Trimmed t) : trim t = t := by
  have hhead : t.dropWhile isWhitespace = t := by
    rw [List.dropWhile_eq_self_iff]
    intro hpos
    rw [h.head _ (List.head?_eq_getElem?.trans (List.getElem?_eq_getElem hpos))]
    decide
  unfold trim
  rw [hhead, List.rdropWhile_eq_self_iff]
  intro hne
  rw [h.last _ (List.getLast?_eq_some_getLast hne)]
  decide

theorem trimmed_trim (t : Text) : Trimmed (trim t) := by
  refine ⟨fun c hc => ?_, fun c hc => ?_⟩
  · have hfix : trim t <+: t.dropWhile isWhitespace := List.rdropWhile_prefix _ _
    obtain ⟨rest, hrest⟩ := hfix
    have hhead : c ∈ (t.dropWhile isWhitespace).head? := by
      rw [← hrest, List.head?_append, Option.mem_def.mp hc]
      rfl
    exact Bool.eq_false_iff.mpr (by
      have := List.head?_dropWhile_not isWhitespace t
      rw [Option.mem_def.mp hhead] at this
      simpa using this)
  · have hne : trim t ≠ [] := by
      rintro heq
      rw [heq] at hc
      exact nomatch hc
    have hlast := List.rdropWhile_last_not isWhitespace _ hne
    rw [List.getLast?_eq_some_getLast hne] at hc
    obtain rfl := Option.some.inj hc
    exact Bool.eq_false_iff.mpr hlast

/-- Between trimmed texts anything may stand. -/
theorem Trimmed.append (ht : Trimmed t) (hs : isWhitespace s = false) (hu : ∀ c ∈ u.getLast?,
    isWhitespace c = false) : Trimmed (t ++ s :: u) := by
  refine ⟨fun c hc => ?_, fun c hc => ?_⟩
  · cases t with
    | nil =>
      obtain rfl := Option.some.inj hc
      exact hs
    | cons a t => exact ht.head c hc
  · rw [List.getLast?_append, List.getLast?_cons] at hc
    cases hlast : u.getLast? with
    | none =>
      rw [hlast] at hc
      obtain rfl := Option.some.inj hc
      exact hs
    | some d =>
      rw [hlast] at hc
      obtain rfl := Option.some.inj hc
      exact hu d hlast

/-- What is no separator is in one of the parts. -/
theorem exists_mem_splitOn (h : c ∈ t) (hc : c ≠ s) : ∃ p ∈ t.splitOn s, c ∈ p := by
  induction t with
  | nil => exact absurd h List.not_mem_nil
  | cons x t ih =>
    rw [List.splitOn_cons_eq_if_modifyHead]
    split_ifs with hx
    · obtain heq | hmem := List.mem_cons.mp h
      · exact absurd (heq.trans (beq_iff_eq.mp hx)) hc
      · obtain ⟨p, hp, hcp⟩ := ih hmem
        exact ⟨p, List.mem_cons_of_mem _ hp, hcp⟩
    · have hne := List.splitOn_ne_nil s t
      generalize t.splitOn s = parts at ih hne
      obtain - | ⟨p, parts⟩ := parts
      · exact absurd rfl hne
      · obtain heq | hmem := List.mem_cons.mp h
        · exact ⟨x :: p, List.mem_cons_self, heq ▸ List.mem_cons_self⟩
        · obtain ⟨q, hq, hcq⟩ := ih hmem
          obtain rfl | hq := List.mem_cons.mp hq
          · exact ⟨x :: q, List.mem_cons_self, List.mem_cons_of_mem _ hcq⟩
          · exact ⟨q, List.mem_cons_of_mem _ hq, hcq⟩

/-- Texts are the same up to the first of a character, and after it. -/
theorem append_cons_inj {x y : Text} (hx : c ∉ x) (hy : c ∉ y) (h : x ++ c :: t = y ++ c :: u) :
    x = y ∧ t = u := by
  obtain ⟨rest, rfl, hrest⟩ | ⟨rest, rfl, hrest⟩ := List.append_eq_append_iff.mp h
  · cases rest with
    | nil => exact ⟨(List.append_nil x).symm, (List.cons.inj hrest).2⟩
    | cons a rest =>
      obtain ⟨rfl, -⟩ := List.cons.inj hrest
      exact absurd (List.mem_append_right x List.mem_cons_self) hy
  · cases rest with
    | nil => exact ⟨List.append_nil y, (List.cons.inj hrest).2.symm⟩
    | cons a rest =>
      obtain ⟨rfl, -⟩ := List.cons.inj hrest
      exact absurd (List.mem_append_right y List.mem_cons_self) hx

end Text

end Lib
end Mosura
