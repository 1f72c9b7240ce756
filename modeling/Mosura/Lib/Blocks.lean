import Mathlib

/-! Sizes in a row, coded in an array: a block of `n` cells holds `n` at its first cell and zeros
behind it. -/

namespace Mosura
namespace Lib

def block (n : ℕ) : List ℕ := n :: List.replicate (n - 1) 0

def blocks (l : List ℕ) : List ℕ := l.flatMap block

@[simp]
theorem blocks_nil : blocks [] = [] := rfl

@[simp]
theorem blocks_cons (n : ℕ) (l : List ℕ) : blocks (n :: l) = block n ++ blocks l := rfl

@[simp]
theorem blocks_append (l l' : List ℕ) : blocks (l ++ l') = blocks l ++ blocks l' :=
  List.flatMap_append

theorem length_block {n : ℕ} (h : 0 < n) : (block n).length = n := by
  rw [block, List.length_cons, List.length_replicate]
  omega

theorem length_blocks {l : List ℕ} (h : ∀ n ∈ l, 0 < n) : (blocks l).length = l.sum := by
  induction l with
  | nil => rfl
  | cons n l ih =>
    have hn := length_block (h n List.mem_cons_self)
    have hl := ih fun m hm => h m (List.mem_cons_of_mem n hm)
    rw [blocks_cons, List.length_append, List.sum_cons, hn, hl]

/-- From position `i` on the array leads over blocks of the sizes `l` to its end. -/
def Leads (a : List ℕ) : ℕ → List ℕ → Prop
  | i, [] => i = a.length
  | i, n :: l => a[i]? = some n ∧ 0 < n ∧ Leads a (i + n) l

/-- The sizes between the marks of a row: `k` cells stand since the last mark. -/
def gaps : List ℕ → ℕ → List ℕ
  | [], k => [k]
  | m :: ms, k => if m = 0 then gaps ms (k + 1) else k :: gaps ms 1

theorem gaps_pos {ms : List ℕ} {k : ℕ} (hk : 0 < k) : ∀ n ∈ gaps ms k, 0 < n := by
  induction ms generalizing k with
  | nil =>
    intro n hn
    rw [List.mem_singleton.mp hn]
    exact hk
  | cons m ms ih =>
    rw [gaps]
    split_ifs
    · exact ih k.succ_pos
    · exact List.forall_mem_cons.mpr ⟨hk, ih Nat.one_pos⟩

theorem sum_gaps (ms : List ℕ) (k : ℕ) : (gaps ms k).sum = k + ms.length := by
  induction ms generalizing k with
  | nil => rfl
  | cons m ms ih =>
    rw [gaps, List.length_cons]
    split_ifs
    · rw [ih]
      omega
    · rw [List.sum_cons, ih]
      omega

/-- `i` is a boundary of the row of sizes. -/
def Boundary (l : List ℕ) (i : ℕ) : Prop := ∃ pre post, l = pre ++ post ∧ pre.sum = i

theorem boundary_zero (l : List ℕ) : Boundary l 0 := ⟨[], l, rfl, rfl⟩

theorem boundary_sum (l : List ℕ) : Boundary l l.sum := ⟨l, [], (List.append_nil l).symm, rfl⟩

theorem boundary_cons {l : List ℕ} {i n : ℕ} (h : Boundary l i) : Boundary (n :: l) (n + i) := by
  obtain ⟨pre, post, rfl, rfl⟩ := h
  exact ⟨n :: pre, post, rfl, List.sum_cons⟩

/-- Each mark is a boundary. -/
theorem boundary_gaps {ms : List ℕ} {k j m : ℕ} (hm : ms[j]? = some m) (hne : m ≠ 0) :
    Boundary (gaps ms k) (k + j) := by
  induction ms generalizing k j with
  | nil => cases hm
  | cons x ms ih =>
    rw [gaps]
    cases j with
    | zero =>
      obtain rfl : x = m := Option.some.inj hm
      rw [if_neg hne]
      exact boundary_cons (boundary_zero _)
    | succ j =>
      have hm' : ms[j]? = some m := hm
      split_ifs
      · have hb := ih (k := k + 1) hm'
        rwa [Nat.add_right_comm, Nat.add_assoc] at hb
      · have hb := boundary_cons (n := k) (ih (k := 1) hm')
        rwa [Nat.add_comm 1 j] at hb

/-- A boundary inside the row is a mark. -/
theorem mark_of_boundary {ms : List ℕ} {k j : ℕ} (hk : 0 < k) (hj : j < ms.length)
    (h : Boundary (gaps ms k) (k + j)) : ∃ m, ms[j]? = some m ∧ m ≠ 0 := by
  induction ms generalizing k j with
  | nil => exact absurd hj (Nat.not_lt_zero j)
  | cons x ms ih =>
    rw [gaps] at h
    split_ifs at h with hx
    · cases j with
      | zero =>
        -- the first block is longer than `k`
        obtain ⟨pre, post, hl, hsum⟩ := h
        cases pre with
        | nil =>
          rw [List.sum_nil] at hsum
          omega
        | cons n pre =>
          have hfirst : k + 1 ≤ n := by
            clear ih hj hx hsum
            induction ms generalizing k n with
            | nil =>
              have hn : k + 1 = n := (List.cons.inj hl).1
              exact hn.le
            | cons y ms ihy =>
              rw [gaps] at hl
              split_ifs at hl
              · exact (Nat.le_succ _).trans (ihy k.succ_pos n hl)
              · exact (List.cons.inj hl).1.le
          rw [List.sum_cons] at hsum
          omega
      | succ j =>
        have hj' : j < ms.length := Nat.lt_of_succ_lt_succ hj
        have hsucc : k + 1 + j = k + (j + 1) := by omega
        refine ih k.succ_pos hj' ?_
        exact hsucc ▸ h
    · cases j with
      | zero => exact ⟨x, rfl, hx⟩
      | succ j =>
        have hj' : j < ms.length := Nat.lt_of_succ_lt_succ hj
        obtain ⟨pre, post, hl, hsum⟩ := h
        cases pre with
        | nil =>
          rw [List.sum_nil] at hsum
          omega
        | cons n pre =>
          obtain ⟨rfl, htl⟩ := List.cons.inj hl
          rw [List.sum_cons] at hsum
          exact ih Nat.one_pos hj' ⟨pre, post, htl, by omega⟩

/-- Between two boundaries there are whole blocks. -/
theorem blocks_between {l : List ℕ} {i n : ℕ} (hi : Boundary l i) (hn : Boundary l (i + n)) :
    ∃ pre mid post, l = pre ++ (mid ++ post) ∧ pre.sum = i ∧ mid.sum = n := by
  obtain ⟨pre, post, hl, hpre⟩ := hi
  obtain ⟨pre', post', hl', hpre'⟩ := hn
  rcases List.append_eq_append_iff.mp (hl.symm.trans hl') with ⟨mid, hmid, hpost⟩ | ⟨mid, hmid, -⟩
  · refine ⟨pre, mid, post', ?_, hpre, ?_⟩
    · rw [hl, hpost]
    · rw [hmid, List.sum_append] at hpre'
      omega
  · -- the second boundary is not after the first: the two are the same
    have hsum : mid.sum = 0 := by
      rw [hmid, List.sum_append] at hpre
      omega
    have hn0 : n = 0 := by
      rw [hmid, List.sum_append] at hpre
      omega
    exact ⟨pre, [], post, hl, hpre, hn0.symm ▸ rfl⟩

/-- The pieces that the sizes `l` make of the first `n` cells. -/
def chop : List ℕ → ℕ → List ℕ
  | [], _ => []
  | c :: cs, n => if n = 0 then [] else min c n :: chop cs (n - c)

theorem chop_zero (l : List ℕ) : chop l 0 = [] := by
  cases l with
  | nil => rfl
  | cons c cs => rw [chop, if_pos rfl]

theorem sum_chop {l : List ℕ} {n : ℕ} (h : n ≤ l.sum) : (chop l n).sum = n := by
  induction l generalizing n with
  | nil => exact (Nat.le_zero.mp h).symm
  | cons c cs ih =>
    rw [chop]
    split_ifs with hn
    · exact hn.symm
    · rw [List.sum_cons] at h ⊢
      rw [ih (by omega)]
      omega

theorem chop_pos {l : List ℕ} {n : ℕ} (h : ∀ c ∈ l, 0 < c) : ∀ c ∈ chop l n, 0 < c := by
  induction l generalizing n with
  | nil => exact fun _ hc => absurd hc List.not_mem_nil
  | cons x cs ih =>
    rw [chop]
    split_ifs with hn
    · exact fun _ hc => absurd hc List.not_mem_nil
    · obtain ⟨hx, hcs⟩ := List.forall_mem_cons.mp h
      exact List.forall_mem_cons.mpr ⟨lt_min hx (Nat.pos_of_ne_zero hn), ih hcs⟩

section Along

variable {α : Type*}

/-- The values `vs` stand one for each block of the sizes from position `i` on, and each has the
property for its position and its size. -/
def Along (P : ℕ → ℕ → α → Prop) : ℕ → List ℕ → List α → Prop
  | _, [], [] => True
  | i, n :: l, v :: vs => P i n v ∧ Along P (i + n) l vs
  | _, [], _ :: _ => False
  | _, _ :: _, [] => False

variable {P Q : ℕ → ℕ → α → Prop} {i : ℕ} {l : List ℕ} {vs : List α}

theorem Along.imp (h : Along P i l vs) (hPQ : ∀ i n, ∀ v ∈ vs, P i n v → Q i n v) :
    Along Q i l vs := by
  induction l generalizing i vs with
  | nil =>
    cases vs with
    | nil => trivial
    | cons v vs => exact h.elim
  | cons n l ih =>
    cases vs with
    | nil => exact h.elim
    | cons v vs =>
      exact ⟨hPQ i n v List.mem_cons_self h.1,
        ih h.2 fun i n u hu => hPQ i n u (List.mem_cons_of_mem v hu)⟩

theorem Along.of_mem (h : Along P i l vs) : ∀ v ∈ vs, ∃ i n, P i n v := by
  induction l generalizing i vs with
  | nil =>
    cases vs with
    | nil => exact fun v hv => absurd hv List.not_mem_nil
    | cons v vs => exact h.elim
  | cons n l ih =>
    cases vs with
    | nil => exact h.elim
    | cons v vs => exact List.forall_mem_cons.mpr ⟨⟨i, n, h.1⟩, ih h.2⟩

end Along

end Lib
end Mosura
