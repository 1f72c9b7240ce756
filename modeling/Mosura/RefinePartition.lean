import Mosura.Lib.Blocks
import Mosura.Refine

/-! The array of a refinement codes a partition of the range that has all its accesses between
its cuts. -/

namespace Mosura
namespace Refine

open Lib

/-- A piece of the range: as the marks cut it out, or four bytes joined of one and three. -/
inductive Part
  | plain (n : ℕ)
  | oneThree
  | threeOne
  deriving DecidableEq, Repr

namespace Part

def size : Part → ℕ
  | plain n => n
  | oneThree | threeOne => 4

/-- The sizes of what the marks cut out. -/
def cuts : Part → List ℕ
  | plain n => [n]
  | oneThree => [1, 3]
  | threeOne => [3, 1]

/-- The cells of the piece. -/
def code : Part → List ℕ
  | plain n => block n
  | oneThree => [4, 3, 0, 0]
  | threeOne => [4, 0, 0, 1]

theorem sum_cuts (p : Part) : p.cuts.sum = p.size := by
  cases p with
  | plain n => exact List.sum_singleton
  | oneThree => rfl
  | threeOne => rfl

theorem length_code {p : Part} (h : 0 < p.size) : p.code.length = p.size := by
  cases p with
  | plain n => exact length_block h
  | oneThree => rfl
  | threeOne => rfl

theorem code_head (p : Part) (l : List ℕ) : (p.code ++ l)[0]? = some p.size := by
  cases p with
  | plain n => rfl
  | oneThree => rfl
  | threeOne => rfl

end Part

def codes (ps : List Part) : List ℕ := ps.flatMap Part.code

/-- The sizes between all the marks. -/
def allCuts (ps : List Part) : List ℕ := ps.flatMap Part.cuts

def sizes (ps : List Part) : List ℕ := ps.map Part.size

@[simp]
theorem codes_cons (p : Part) (ps : List Part) : codes (p :: ps) = p.code ++ codes ps := rfl

theorem codes_singleton (p : Part) : codes [p] = p.code := List.append_nil _

@[simp]
theorem codes_append (ps qs : List Part) : codes (ps ++ qs) = codes ps ++ codes qs :=
  List.flatMap_append

@[simp]
theorem allCuts_cons (p : Part) (ps : List Part) : allCuts (p :: ps) = p.cuts ++ allCuts ps := rfl

@[simp]
theorem allCuts_append (ps qs : List Part) : allCuts (ps ++ qs) = allCuts ps ++ allCuts qs :=
  List.flatMap_append

@[simp]
theorem sizes_cons (p : Part) (ps : List Part) : sizes (p :: ps) = p.size :: sizes ps := rfl

theorem sum_allCuts (ps : List Part) : (allCuts ps).sum = (sizes ps).sum := by
  induction ps with
  | nil => rfl
  | cons p ps ih =>
    rw [allCuts_cons, List.sum_append, p.sum_cuts, ih, sizes_cons, List.sum_cons]

theorem size_pos_of_cuts {p : Part} (h : ∀ n ∈ p.cuts, 0 < n) : 0 < p.size := by
  cases p with
  | plain n => exact h n List.mem_cons_self
  | oneThree => exact Nat.succ_pos 3
  | threeOne => exact Nat.succ_pos 3

theorem length_codes {ps : List Part} (h : ∀ n ∈ allCuts ps, 0 < n) :
    (codes ps).length = (sizes ps).sum := by
  induction ps with
  | nil => rfl
  | cons p ps ih =>
    have hp := size_pos_of_cuts fun n hn => h n (List.mem_append_left _ hn)
    have hps := ih fun n hn => h n (List.mem_append_right _ hn)
    rw [codes_cons, List.length_append, p.length_code hp, hps, sizes_cons, List.sum_cons]

/-! `remove13_refinement` on the pieces. -/

/-- The pieces that `remove13_refinement` leaves, where `p` is the one before. -/
def join : Part → List ℕ → List Part
  | p, [] => [p]
  | p, n :: rest =>
    if p = .plain 1 ∧ n = 3 then join .oneThree rest
    else if p = .plain 3 ∧ n = 1 then join .threeOne rest
    else p :: join (.plain n) rest

/-- The cuts stay where they are. -/
theorem allCuts_join (p : Part) (rest : List ℕ) : allCuts (join p rest) = p.cuts ++ rest := by
  induction rest generalizing p with
  | nil => rfl
  | cons n rest ih =>
    rw [join]
    split_ifs with h h'
    · rw [ih, h.1, h.2]
      rfl
    · rw [ih, h'.1, h'.2]
      rfl
    · rw [allCuts_cons, ih]
      rfl

theorem size_eq_of_ne {p : Part} {n : ℕ} (hn : n ≠ 4) : p.size = n ↔ p = .plain n := by
  cases p with
  | plain m => exact ⟨fun h => congrArg Part.plain h, fun h => Part.plain.inj h⟩
  | oneThree => exact ⟨fun h => absurd h.symm hn, fun h => nomatch h⟩
  | threeOne => exact ⟨fun h => absurd h.symm hn, fun h => nomatch h⟩

/-- The loop joins the pieces one after the other. -/
theorem remove13Loop_codes {rest : List ℕ} (hrest : ∀ n ∈ rest, 0 < n) {fuel : ℕ}
    (hfuel : rest.length < fuel) (done : List Part) {p : Part} (hp : 0 < p.size) :
    remove13Loop fuel (codes done ++ (p.code ++ blocks rest)) ((codes done).length + p.size)
      p.size =
      some (codes (done ++ join p rest)) := by
  induction rest generalizing fuel done p with
  | nil =>
    obtain ⟨fuel, rfl⟩ := Nat.exists_eq_succ_of_ne_zero hfuel.ne_bot
    have hend : (codes done ++ (p.code ++ blocks []))[(codes done).length + p.size]? = none := by
      rw [List.getElem?_eq_none]
      simp only [blocks_nil, List.append_nil, List.length_append, p.length_code hp, le_refl]
    rw [remove13Loop, hend, blocks_nil, join, codes_append, List.append_nil]
    simp only [codes, List.flatMap_cons, List.flatMap_nil, List.append_nil]
  | cons n rest ih =>
    obtain ⟨fuel, rfl⟩ := Nat.exists_eq_succ_of_ne_zero (Nat.ne_zero_of_lt hfuel)
    obtain ⟨hn, htail⟩ := List.forall_mem_cons.mp hrest
    have hturns : rest.length < fuel := Nat.lt_of_succ_lt_succ hfuel
    have hcur : (codes done ++ (p.code ++ blocks (n :: rest)))[(codes done).length + p.size]? =
        some n := by
      rw [List.getElem?_append_right (Nat.le_add_right _ _), Nat.add_sub_cancel_left,
        List.getElem?_append_right (p.length_code hp).le, p.length_code hp, Nat.sub_self]
      rfl
    have h1 : p.size = 1 ↔ p = .plain 1 := size_eq_of_ne (by decide)
    have h3 : p.size = 3 ↔ p = .plain 3 := size_eq_of_ne (by decide)
    have hcond : (p.size = 1 ∧ n = 3) ∨ (p.size = 3 ∧ n = 1) ↔
        (p = .plain 1 ∧ n = 3) ∨ (p = .plain 3 ∧ n = 1) := by rw [h1, h3]
    rw [remove13Loop, hcur]
    dsimp only
    rw [if_neg hn.ne', if_congr hcond rfl rfl, join]
    by_cases hlow : p = .plain 1 ∧ n = 3
    · obtain ⟨rfl, rfl⟩ := hlow
      rw [if_pos (.inl ⟨rfl, rfl⟩), if_pos ⟨rfl, rfl⟩,
        ← ih htail hturns done (p := .oneThree) (Nat.succ_pos 3)]
      congr 1
      simp [Part.size, Part.code, block]
    · by_cases hhigh : p = .plain 3 ∧ n = 1
      · obtain ⟨rfl, rfl⟩ := hhigh
        rw [if_pos (.inr ⟨rfl, rfl⟩), if_neg hlow, if_pos ⟨rfl, rfl⟩,
          ← ih htail hturns done (p := .threeOne) (Nat.succ_pos 3)]
        congr 1
        simp [Part.size, Part.code, block]
      · rw [if_neg (not_or.mpr ⟨hlow, hhigh⟩), if_neg hlow, if_neg hhigh]
        have hnext := ih htail hturns (done ++ [p]) (p := .plain n) hn
        have hone := codes_singleton p
        rw [codes_append, hone, List.length_append, p.length_code hp, List.append_assoc,
          List.append_assoc] at hnext
        exact hnext

/-- The pieces that the sizes between the marks become. -/
def joined : List ℕ → List Part
  | [] => []
  | n :: rest => join (.plain n) rest

theorem allCuts_joined (l : List ℕ) : allCuts (joined l) = l := by
  cases l with
  | nil => rfl
  | cons n rest => exact allCuts_join (.plain n) rest

theorem remove13Refinement_blocks {l : List ℕ} (h : ∀ n ∈ l, 0 < n) :
    remove13Refinement (blocks l) = some (codes (joined l)) := by
  cases l with
  | nil => rfl
  | cons n rest =>
    obtain ⟨hn, hrest⟩ := List.forall_mem_cons.mp h
    have hfuel : rest.length < (blocks (n :: rest)).length + 1 := by
      have hlen : rest.length ≤ rest.sum := List.length_le_sum_of_one_le rest hrest
      rw [length_blocks h, List.sum_cons]
      omega
    have hloop := remove13Loop_codes hrest hfuel [] (p := .plain n) hn
    change remove13Loop _ (blocks (n :: rest)) (0 + n) n = _ at hloop
    rw [Nat.zero_add] at hloop
    exact hloop

/-! The sizes between the marks. -/

theorem set_block {pre : List ℕ} (hpre : ∀ n ∈ pre, 0 < n) (x k : ℕ) (ms : List ℕ) :
    (blocks pre ++ (x :: List.replicate (k - 1) 0 ++ ms)).set pre.sum k =
      blocks pre ++ (block k ++ ms) := by
  rw [List.set_append_right _ _ (length_blocks hpre).le, length_blocks hpre, Nat.sub_self]
  rfl

/-- The loop: blocks stand before the last mark `x`, with `k` cells since; the marks `ms` come. -/
theorem foldl_cutStep {ms : List ℕ} {pre : List ℕ} (hpre : ∀ n ∈ pre, 0 < n) {k : ℕ} (hk : 0 < k)
    (x : ℕ) : ∃ pre' n r, pre ++ gaps ms k = pre' ++ [n] ∧
      (List.range' (pre.sum + k) ms.length).foldl cutStep
        (pre.sum, blocks pre ++ (x :: List.replicate (k - 1) 0 ++ ms)) = (pre'.sum, r) ∧
      r.set pre'.sum (pre.sum + k + ms.length - pre'.sum) = blocks (pre ++ gaps ms k) := by
  induction ms generalizing pre k x with
  | nil =>
    refine ⟨pre, k, _, rfl, rfl, ?_⟩
    have hsize : pre.sum + k + ([] : List ℕ).length - pre.sum = k := by simp
    rw [hsize, set_block hpre, gaps, blocks_append]
    rfl
  | cons m ms ih =>
    have hlen : (x :: List.replicate (k - 1) 0).length = k := by
      rw [List.length_cons, List.length_replicate]
      omega
    have hcur : (blocks pre ++ (x :: List.replicate (k - 1) 0 ++ m :: ms)).getD (pre.sum + k) 0 =
        m := by
      rw [List.getD_append_right _ _ _ _ (by rw [length_blocks hpre]; omega), length_blocks hpre,
        Nat.add_sub_cancel_left, List.getD_append_right _ _ _ _ hlen.le, hlen, Nat.sub_self]
      rfl
    rw [List.length_cons, List.range'_succ, List.foldl_cons, cutStep, hcur, gaps]
    dsimp only
    by_cases hm : m = 0
    · -- no mark: the block grows
      have hzeros : x :: List.replicate (k - 1) 0 ++ m :: ms =
          x :: List.replicate (k + 1 - 1) 0 ++ ms := by
        have hk' : k + 1 - 1 = k - 1 + 1 := by omega
        rw [hk', List.replicate_succ', hm]
        simp
      obtain ⟨pre', n, r, hl, hfold, hset⟩ := ih hpre k.succ_pos x
      rw [if_pos hm, if_pos hm, hzeros]
      refine ⟨pre', n, r, hl, hfold, ?_⟩
      rw [← hset]
      congr 2
      omega
    · -- a mark: the block is `k` cells long, and the next one begins
      have hpre' : ∀ n ∈ pre ++ [k], 0 < n := by
        intro n hn
        rcases List.mem_append.mp hn with hn | hn
        · exact hpre n hn
        · exact (List.mem_singleton.mp hn).symm ▸ hk
      obtain ⟨pre', n, r, hl, hfold, hset⟩ := ih hpre' Nat.one_pos m
      have hsum : (pre ++ [k]).sum = pre.sum + k := by simp
      rw [hsum] at hfold hset
      have hcons : pre ++ [k] ++ gaps ms 1 = pre ++ k :: gaps ms 1 := by simp
      rw [hcons] at hl hset
      rw [if_neg hm, if_neg hm, Nat.add_sub_cancel_left, set_block hpre]
      refine ⟨pre', n, r, hl, ?_, ?_⟩
      · rw [← hfold]
        congr 2
        simp
      · rw [← hset]
        congr 2
        omega

/-- The marks behind the first cell decide the sizes. -/
theorem cutSizes_eq (x : ℕ) (ms : List ℕ) :
    cutSizes (x :: ms) (ms.length + 1) = none ∨
      cutSizes (x :: ms) (ms.length + 1) = some (blocks (gaps ms 1)) := by
  obtain ⟨pre', n, r, -, hfold, hset⟩ := (@foldl_cutStep ms [])
    (fun _ hn => absurd hn List.not_mem_nil) Nat.one_pos x
  have hfold : (List.range' 1 ms.length).foldl cutStep (0, x :: ms) = (pre'.sum, r) := hfold
  have hset : r.set pre'.sum (ms.length + 1 - pre'.sum) = blocks (gaps ms 1) := by
    rw [← List.nil_append (gaps ms 1), ← hset]
    congr 2
    rw [List.sum_nil]
    omega
  unfold cutSizes
  rw [Nat.add_sub_cancel, hfold]
  dsimp only
  rw [hset]
  split_ifs
  · exact .inl rfl
  · exact .inr rfl

/-! The marks. -/

/-- How far the storage of `v` is from the start of the range. -/
def distance (f : Funcdata) (rangeOff : U64) (v : VarnodeId) : ℕ :=
  ((f.vn v).loc.offset - rangeOff).toNat

def Marked (l : List ℕ) (i : ℕ) : Prop := ∃ m, l[i]? = some m ∧ m ≠ 0

/-- An access starts or ends at `i`. -/
def Bounds (f : Funcdata) (rangeOff : U64) (i : ℕ) (v : VarnodeId) : Prop :=
  i = distance f rangeOff v ∨ i = distance f rangeOff v + (f.vn v).size

theorem marked_set {l : List ℕ} {i j : ℕ} (hj : j < l.length) :
    Marked (l.set j 1) i ↔ i = j ∨ Marked l i := by
  unfold Marked
  by_cases hi : i = j
  · subst hi
    rw [List.getElem?_set_self hj]
    exact iff_of_true ⟨1, rfl, one_ne_zero⟩ (.inl rfl)
  · rw [List.getElem?_set_ne (Ne.symm hi)]
    exact (or_iff_right hi).symm

theorem buildRefinement_spec {f : Funcdata} {rangeOff : U64} {vnlist : List VarnodeId}
    {refine : List ℕ}
    (h : ∀ v ∈ vnlist, distance f rangeOff v + (f.vn v).size < refine.length) :
    ∃ r, buildRefinement f rangeOff refine vnlist = some r ∧ r.length = refine.length ∧
      ∀ i, Marked r i ↔ Marked refine i ∨ ∃ v ∈ vnlist, Bounds f rangeOff i v := by
  induction vnlist generalizing refine with
  | nil => exact ⟨refine, rfl, rfl, fun i => by simp⟩
  | cons v vs ih =>
    obtain ⟨hv, hvs⟩ := List.forall_mem_cons.mp h
    have hstart : distance f rangeOff v < refine.length := (Nat.le_add_right _ _).trans_lt hv
    have hend : distance f rangeOff v + (f.vn v).size <
        (refine.set (distance f rangeOff v) 1).length := by
      rwa [List.length_set]
    obtain ⟨r, hr, hlen, hmarks⟩ := ih (show ∀ u ∈ vs, distance f rangeOff u + (f.vn u).size <
      ((refine.set (distance f rangeOff v) 1).set (distance f rangeOff v + (f.vn v).size) 1).length
      by simpa only [List.length_set] using hvs)
    refine ⟨r, ?_, by rw [hlen, List.length_set, List.length_set], fun i => ?_⟩
    · have hcell : setCell refine (distance f rangeOff v) 1 =
          some (refine.set (distance f rangeOff v) 1) := if_pos hstart
      have hcell' : setCell (refine.set (distance f rangeOff v) 1)
          (distance f rangeOff v + (f.vn v).size) 1 = some _ := if_pos hend
      unfold buildRefinement distance at *
      rw [List.foldlM_cons]
      simp only [hcell, hcell', Option.bind_eq_bind, Option.bind_some]
      exact hr
    · rw [hmarks, marked_set hend, marked_set hstart]
      constructor
      · rintro ((hi | hi | hi) | ⟨u, hu, hi⟩)
        · exact .inr ⟨v, List.mem_cons_self, .inr hi⟩
        · exact .inr ⟨v, List.mem_cons_self, .inl hi⟩
        · exact .inl hi
        · exact .inr ⟨u, List.mem_cons_of_mem v hu, hi⟩
      · rintro (hi | ⟨u, hu, hi⟩)
        · exact .inl (.inr (.inr hi))
        · rcases List.mem_cons.mp hu with rfl | hu
          · rcases hi with hi | hi
            · exact .inl (.inr (.inl hi))
            · exact .inl (.inl hi)
          · exact .inr ⟨u, hu, hi⟩

/-- The pieces `ps` tile the range, and their cuts are the starts and the ends of the accesses. -/
structure PartsOf (f : Funcdata) (range : MemRange) (c : Collected) (ps : List Part) : Prop where
  small : range.size ≤ 1024
  pos : ∀ n ∈ allCuts ps, 0 < n
  sum : (sizes ps).sum = range.size
  start : ∀ v ∈ c.all, Boundary (allCuts ps) (distance f range.off v)
  stop : ∀ v ∈ c.all, Boundary (allCuts ps) (distance f range.off v + (f.vn v).size)
  tight : ∀ i, 0 < i → i < range.size → Boundary (allCuts ps) i →
    ∃ v ∈ c.all, Bounds f range.off i v

/-- The marks of a row are the boundaries of its sizes, less the ends of the row. -/
theorem marked_iff_boundary {x i : ℕ} {ms : List ℕ} (h0 : 0 < i) (hi : i < ms.length + 1) :
    Marked (x :: ms) i ↔ Boundary (gaps ms 1) i := by
  obtain ⟨j, rfl⟩ := Nat.exists_eq_succ_of_ne_zero h0.ne'
  have hj : j < ms.length := Nat.lt_of_succ_lt_succ hi
  have hadd : j.succ = 1 + j := Nat.add_comm j 1
  constructor
  · rintro ⟨m, hm, hne⟩
    rw [hadd]
    exact boundary_gaps hm hne
  · intro hb
    rw [hadd] at hb
    exact (@mark_of_boundary ms) Nat.one_pos hj hb

/-- The array codes a partition of the range, if it is refined at all; there is no panic. -/
theorem partition_spec {f : Funcdata} {range : MemRange} {c : Collected}
    (h : ∀ v ∈ c.all, distance f range.off v + (f.vn v).size ≤ range.size) :
    ∃ r, partition f range c = some r ∧
      ∀ refine, r = some refine → ∃ ps, refine = codes ps ∧ PartsOf f range c ps := by
  unfold partition
  by_cases hbig : 1024 < range.size
  · exact ⟨none, by rw [if_pos hbig]; rfl, fun _ hr => nomatch hr⟩
  rw [if_neg hbig]
  -- the three lists of accesses
  have hlen0 : (List.replicate (range.size + 1) 0).length = range.size + 1 := List.length_replicate
  obtain ⟨r1, hr1, hlen1, hm1⟩ :=
    (@buildRefinement_spec f range.off c.read (List.replicate (range.size + 1) 0)) fun v hv => by
      rw [hlen0]
      exact Nat.lt_succ_of_le (h v (List.mem_append_left _ hv))
  obtain ⟨r2, hr2, hlen2, hm2⟩ := (@buildRefinement_spec f range.off c.write r1) fun v hv => by
      rw [hlen1, hlen0]
      exact Nat.lt_succ_of_le (h v (List.mem_append_right _ (List.mem_append_left _ hv)))
  obtain ⟨r3, hr3, hlen3, hm3⟩ := (@buildRefinement_spec f range.off c.input r2) fun v hv => by
      rw [hlen2, hlen1, hlen0]
      exact Nat.lt_succ_of_le (h v (List.mem_append_right _ (List.mem_append_right _ hv)))
  have hmarks (i : ℕ) : Marked r3 i ↔ ∃ v ∈ c.all, Bounds f range.off i v := by
    have hzero : ¬Marked (List.replicate (range.size + 1) 0) i := by
      rintro ⟨m, hm, hne⟩
      rw [List.getElem?_replicate] at hm
      split_ifs at hm
      exact hne (Option.some.inj hm).symm
    rw [hm3, hm2, hm1, or_iff_right hzero]
    unfold Collected.all
    simp only [List.mem_append, or_and_right, exists_or, or_assoc]
  simp only [hr1, hr2, hr3, Option.bind_eq_bind, Option.bind_some]
  have hlen : r3.length = range.size + 1 := by rw [hlen3, hlen2, hlen1, hlen0]
  -- the marks behind the start, less the one past the end
  cases hd : r3.dropLast with
  | nil =>
    have hsize : range.size = 0 := by
      have hdl := congrArg List.length hd
      rw [List.length_dropLast, hlen] at hdl
      exact hdl
    refine ⟨none, ?_, fun _ hr => nomatch hr⟩
    rw [hsize]
    rfl
  | cons x ms =>
    have hms : range.size = ms.length + 1 := by
      have hdl := congrArg List.length hd
      rw [List.length_dropLast, hlen, List.length_cons] at hdl
      exact hdl
    rcases cutSizes_eq x ms with hcut | hcut
    · refine ⟨none, ?_, fun _ hr => nomatch hr⟩
      rw [hms, hcut]
      rfl
    · have hpos : ∀ n ∈ gaps ms 1, 0 < n := gaps_pos Nat.one_pos
      refine ⟨some (codes (joined (gaps ms 1))), ?_, fun refine hr => ?_⟩
      · rw [hms, hcut]
        dsimp only
        rw [remove13Refinement_blocks hpos]
        rfl
      · have hsum : (gaps ms 1).sum = range.size := by
          rw [sum_gaps, hms, Nat.add_comm]
        have hinner (i : ℕ) (h0 : 0 < i) (hi : i < range.size) :
            Boundary (gaps ms 1) i ↔ ∃ v ∈ c.all, Bounds f range.off i v := by
          rw [← marked_iff_boundary (x := x) h0 (hms ▸ hi), ← hmarks, ← hd]
          unfold Marked
          rw [List.getElem?_dropLast, if_pos (by rw [hlen]; omega)]
        have hcuts := allCuts_joined (gaps ms 1)
        have hall (i : ℕ) (hi : i ≤ range.size) (hb : ∃ v ∈ c.all, Bounds f range.off i v) :
            Boundary (gaps ms 1) i := by
          rcases Nat.eq_zero_or_pos i with rfl | h0
          · exact boundary_zero _
          · rcases hi.eq_or_lt with rfl | hlt
            · exact hsum ▸ boundary_sum _
            · exact (hinner i h0 hlt).mpr hb
        refine ⟨joined (gaps ms 1), (Option.some.inj hr).symm, not_lt.mp hbig, ?_, ?_,
          fun v hv => ?_, fun v hv => ?_, fun i h0 hi hb => ?_⟩
        · rwa [hcuts]
        · rw [← sum_allCuts, hcuts, hsum]
        · rw [hcuts]
          exact hall _ ((Nat.le_add_right _ _).trans (h v hv)) ⟨v, hv, .inl rfl⟩
        · rw [hcuts]
          exact hall _ (h v hv) ⟨v, hv, .inr rfl⟩
        · rw [hcuts] at hb
          exact (hinner i h0 hi).mp hb

/-! What the pieces make of an access. -/

/-- The `n` bytes from `i` on are a piece, or the first or the second part of a joined one. -/
def InPart (ps : List Part) (i n : ℕ) : Prop :=
  ∃ pre p post, ps = pre ++ p :: post ∧ (i = (sizes pre).sum ∧ n = p.size ∨
    ∃ m, (p.cuts = [n, m] ∧ i = (sizes pre).sum) ∨ (p.cuts = [m, n] ∧ i = (sizes pre).sum + m))

/-- So is each of the consecutive stretches from `i` on. -/
def Within (ps : List Part) : ℕ → List ℕ → Prop
  | _, [] => True
  | i, n :: l => InPart ps i n ∧ Within ps (i + n) l

/-- A row of cuts ends between two pieces, or between the two cuts of a joined one. -/
theorem allCuts_eq_append {ps : List Part} {l l' : List ℕ} (h : allCuts ps = l ++ l') :
    (∃ pre post, ps = pre ++ post ∧ allCuts pre = l ∧ allCuts post = l') ∨
      ∃ pre p post a b, ps = pre ++ p :: post ∧ p.cuts = [a, b] ∧ l = allCuts pre ++ [a] ∧
        l' = b :: allCuts post := by
  induction ps generalizing l with
  | nil =>
    obtain ⟨rfl, rfl⟩ := List.append_eq_nil_iff.mp h.symm
    exact .inl ⟨[], [], rfl, rfl, rfl⟩
  | cons p ps ih =>
    rw [allCuts_cons] at h
    rcases List.append_eq_append_iff.mp h with ⟨r, hl, hr⟩ | ⟨r, hl, hr⟩
    · -- the row goes on behind the first piece
      rcases ih hr with ⟨pre, post, rfl, hpre, hpost⟩ | ⟨pre, q, post, a, b, rfl, hq, hpre, hpost⟩
      · refine .inl ⟨p :: pre, post, rfl, ?_, hpost⟩
        rw [allCuts_cons, hpre, hl]
      · refine .inr ⟨p :: pre, q, post, a, b, rfl, hq, ?_, hpost⟩
        rw [hl, hpre, allCuts_cons, List.append_assoc]
    · -- the row ends in the first piece
      cases l with
      | nil => exact .inl ⟨[], p :: ps, rfl, rfl, by rw [allCuts_cons, hl, hr]; rfl⟩
      | cons a l =>
        cases r with
        | nil =>
          rw [List.append_nil] at hl
          exact .inl ⟨[p], ps, rfl, by rw [← hl]; exact List.append_nil _, hr.symm⟩
        | cons b r =>
          have htwo : l = [] ∧ r = [] := by
            cases p with
            | plain n =>
              have hlen := congrArg List.length hl
              simp [Part.cuts] at hlen
            | oneThree =>
              have hlen := congrArg List.length hl
              simp [Part.cuts] at hlen
              exact ⟨List.length_eq_zero_iff.mp (by omega), List.length_eq_zero_iff.mp (by omega)⟩
            | threeOne =>
              have hlen := congrArg List.length hl
              simp [Part.cuts] at hlen
              exact ⟨List.length_eq_zero_iff.mp (by omega), List.length_eq_zero_iff.mp (by omega)⟩
          obtain ⟨rfl, rfl⟩ := htwo
          exact .inr ⟨[], p, ps, a, b, rfl, hl, rfl, hr⟩

/-- From the start of a piece on the array leads over the pieces. -/
theorem leads_codes (pre : List Part) {post : List Part} (hpost : ∀ n ∈ allCuts post, 0 < n) :
    Leads (codes (pre ++ post)) (codes pre).length (sizes post) := by
  induction post generalizing pre with
  | nil =>
    rw [List.append_nil]
    rfl
  | cons p post ih =>
    have hp := size_pos_of_cuts fun n hn => hpost n (List.mem_append_left _ hn)
    have hnext := ih (pre ++ [p]) fun n hn => hpost n (List.mem_append_right _ hn)
    have hone := codes_singleton p
    rw [codes_append, codes_append pre, hone, List.length_append, p.length_code hp,
      List.append_assoc] at hnext
    rw [codes_append, codes_cons]
    refine ⟨?_, hp, hnext⟩
    rw [List.getElem?_append_right le_rfl, Nat.sub_self]
    exact p.code_head _

/-- So it does from the second cut of a joined piece on, which is still there. -/
theorem leads_inner (pre : List Part) {p : Part} {post : List Part} {a b : ℕ}
    (hp : p.cuts = [a, b]) (hpost : ∀ n ∈ allCuts post, 0 < n) :
    Leads (codes (pre ++ p :: post)) ((codes pre).length + a) (b :: sizes post) := by
  have hnext := leads_codes (pre ++ [p]) hpost
  have hone := codes_singleton p
  rw [codes_append, codes_append pre, hone, List.length_append, List.append_assoc] at hnext
  have hcode : p.code.length = a + b ∧ p.code[a]? = some b ∧ 0 < b := by
    cases p with
    | plain n => exact absurd (congrArg List.length hp) (by simp [Part.cuts])
    | oneThree =>
      obtain ⟨rfl, hb⟩ := List.cons.inj hp
      obtain ⟨rfl, -⟩ := List.cons.inj hb
      exact ⟨rfl, rfl, Nat.succ_pos 2⟩
    | threeOne =>
      obtain ⟨rfl, hb⟩ := List.cons.inj hp
      obtain ⟨rfl, -⟩ := List.cons.inj hb
      exact ⟨rfl, rfl, Nat.one_pos⟩
  obtain ⟨hlen, hcell, hb⟩ := hcode
  rw [codes_append, codes_cons]
  refine ⟨?_, hb, ?_⟩
  · have hlt : a < p.code.length := by omega
    rw [List.getElem?_append_right (Nat.le_add_right _ _),
      Nat.add_sub_cancel_left, List.getElem?_append_left hlt, hcell]
  · rwa [hlen, ← Nat.add_assoc] at hnext

/-- Whole cuts from the start of a piece on are pieces, the last one perhaps only its first part. -/
theorem within_chop {pre post : List Part} {mid rest : List ℕ}
    (hpos : ∀ n ∈ allCuts post, 0 < n) (h : allCuts post = mid ++ rest) :
    mid.sum ≤ (sizes post).sum ∧
      Within (pre ++ post) (sizes pre).sum (chop (sizes post) mid.sum) := by
  induction post generalizing pre mid with
  | nil =>
    obtain ⟨rfl, -⟩ := List.append_eq_nil_iff.mp h.symm
    exact ⟨le_rfl, trivial⟩
  | cons p post ih =>
    have hp := size_pos_of_cuts fun n hn => hpos n (List.mem_append_left _ hn)
    have hpost : ∀ n ∈ allCuts post, 0 < n := fun n hn => hpos n (List.mem_append_right _ hn)
    have hsizes : (sizes (pre ++ [p])).sum = (sizes pre).sum + p.size := by simp [sizes]
    rw [sizes_cons, List.sum_cons]
    rw [allCuts_cons] at h
    rcases List.append_eq_append_iff.mp h with ⟨r, rfl, hr⟩ | ⟨r, hl, hr⟩
    · -- the whole piece
      obtain ⟨hle, hwithin⟩ := (@ih (pre ++ [p])) hpost hr
      rw [List.append_assoc, hsizes] at hwithin
      have hsum : (p.cuts ++ r).sum = p.size + r.sum := by rw [List.sum_append, p.sum_cuts]
      rw [hsum]
      refine ⟨Nat.add_le_add_left hle _, ?_⟩
      rw [chop, if_neg (by omega), Nat.min_eq_left (Nat.le_add_right _ _), Nat.add_sub_cancel_left]
      exact ⟨⟨pre, p, post, rfl, .inl ⟨rfl, rfl⟩⟩, hwithin⟩
    · -- nothing of it, or its first cut
      have hlen := congrArg List.sum hl
      rw [p.sum_cuts, List.sum_append] at hlen
      refine ⟨by omega, ?_⟩
      cases mid with
      | nil =>
        rw [List.sum_nil, chop, if_pos rfl]
        trivial
      | cons a mid =>
        have hin : InPart (pre ++ p :: post) (sizes pre).sum (a :: mid).sum := by
          refine ⟨pre, p, post, rfl, ?_⟩
          cases r with
          | nil => exact .inl ⟨rfl, by rw [List.append_nil] at hl; rw [← p.sum_cuts, hl]⟩
          | cons b r =>
            have hnil : mid = [] ∧ r = [] := by
              have hlen2 := congrArg List.length hl
              cases p with
              | plain n => simp [Part.cuts] at hlen2
              | oneThree =>
                simp [Part.cuts] at hlen2
                exact ⟨List.length_eq_zero_iff.mp (by omega), List.length_eq_zero_iff.mp (by omega)⟩
              | threeOne =>
                simp [Part.cuts] at hlen2
                exact ⟨List.length_eq_zero_iff.mp (by omega), List.length_eq_zero_iff.mp (by omega)⟩
            obtain ⟨rfl, rfl⟩ := hnil
            exact .inr ⟨b, .inl ⟨by simpa using hl, rfl⟩⟩
        have ha : 0 < a := hpos a (List.mem_append_left _ (by rw [hl]; exact List.mem_cons_self))
        have hsum : (a :: mid).sum ≠ 0 := by
          rw [List.sum_cons]
          omega
        rw [chop, if_neg hsum, Nat.min_eq_right (by omega), Nat.sub_eq_zero_of_le (by omega),
          chop_zero]
        exact ⟨hin, trivial⟩

/-- What the array makes of the `n` bytes from `i` on, where they are between cuts: it leads over
sizes that chop them into pieces, or parts of joined pieces. -/
theorem exists_leads {ps : List Part} {i n : ℕ} (hpos : ∀ m ∈ allCuts ps, 0 < m)
    (hi : Boundary (allCuts ps) i) (hn : Boundary (allCuts ps) (i + n)) :
    ∃ l, Leads (codes ps) i l ∧ n ≤ l.sum ∧ Within ps i (chop l n) := by
  obtain ⟨pre, mid, post, hl, rfl, rfl⟩ := blocks_between hi hn
  have hlen {qs : List Part} (hqs : ∀ m ∈ allCuts qs, 0 < m) :
      (codes qs).length = (allCuts qs).sum := by
    rw [length_codes hqs, sum_allCuts]
  rcases allCuts_eq_append hl with
    ⟨P, Q, rfl, hP, hQ⟩ | ⟨P, p, Q, a, b, rfl, hp, rfl, hrest⟩
  · rw [allCuts_append] at hpos
    have hposP : ∀ m ∈ allCuts P, 0 < m := fun m hm => hpos m (List.mem_append_left _ hm)
    have hposQ : ∀ m ∈ allCuts Q, 0 < m := fun m hm => hpos m (List.mem_append_right _ hm)
    obtain ⟨hle, hwithin⟩ := (@within_chop P) hposQ hQ
    have hleads := leads_codes P hposQ
    rw [hlen hposP, hP] at hleads
    rw [← sum_allCuts, hP] at hwithin
    exact ⟨sizes Q, hleads, hle, hwithin⟩
  · rw [allCuts_append, allCuts_cons] at hpos
    have hposP : ∀ m ∈ allCuts P, 0 < m := fun m hm => hpos m (List.mem_append_left _ hm)
    have hposQ : ∀ m ∈ allCuts Q, 0 < m := fun m hm =>
      hpos m (List.mem_append_right _ (List.mem_append_right _ hm))
    have hleads := leads_inner P hp hposQ
    rw [hlen hposP] at hleads
    have hsum : (allCuts P ++ [a]).sum = (allCuts P).sum + a := by simp
    rw [hsum]
    cases mid with
    | nil =>
      refine ⟨b :: sizes Q, hleads, Nat.zero_le _, ?_⟩
      rw [List.sum_nil, chop_zero]
      trivial
    | cons c mid =>
      obtain ⟨rfl, htail⟩ := List.cons.inj hrest
      obtain ⟨hle, hwithin⟩ := (@within_chop (P ++ [p])) hposQ htail.symm
      have hc : 0 < c := hleads.2.1
      have hpsize : (sizes (P ++ [p])).sum = (allCuts P).sum + a + c := by
        rw [← sum_allCuts, allCuts_append, List.sum_append]
        have hone : allCuts [p] = p.cuts := List.append_nil _
        rw [hone, hp]
        simp [Nat.add_assoc]
      rw [hpsize, List.append_assoc] at hwithin
      refine ⟨c :: sizes Q, hleads, ?_, ?_⟩
      · rw [List.sum_cons, List.sum_cons]
        exact Nat.add_le_add_left hle c
      · rw [List.sum_cons, chop, if_neg (by omega), Nat.min_eq_left (Nat.le_add_right _ _),
          Nat.add_sub_cancel_left]
        refine ⟨⟨P, p, Q, rfl, .inr ⟨a, .inr ⟨hp, ?_⟩⟩⟩, hwithin⟩
        rw [← sum_allCuts]

end Refine
end Mosura
