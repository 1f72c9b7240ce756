import Mosura.LocationMap

/-! Which runs of `LocationMap::add` keep the recorded ranges disjoint. -/

namespace Mosura

theorem wrappingSub_of_le {a k : ℕ} (h : k ≤ a) (ha : a < 2 ^ 64) : wrappingSub a k = a - k := by
  unfold wrappingSub
  omega

theorem wrappingSub_of_lt {a k : ℕ} (h : a < k) : wrappingSub a k = a + 2 ^ 64 - k := by
  unfold wrappingSub
  omega

namespace RangeMap

/-- The end of a recorded range. -/
def stop (e : ℕ × SizePass) : ℕ := e.1 + e.2.size

/-- The first of two ranges ends before the second one starts. -/
def Before (e e' : ℕ × SizePass) : Prop := e.1 < e'.1 ∧ stop e ≤ e'.1

/-- The ranges are in order and apart, and none passes the end of its space. -/
structure Valid (m : RangeMap) : Prop where
  pairwise : m.Pairwise Before
  fits : ∀ e ∈ m, e.1 < 2 ^ 64 ∧ stop e ≤ 2 ^ 64

/-- The byte at `x` is in a recorded range. -/
def Covers (m : RangeMap) (x : ℕ) : Prop := ∃ e ∈ m, e.1 ≤ x ∧ x < stop e

/-- `e` and the request of `size` bytes at `off` overlap: one starts in the other. -/
def Meets (e : ℕ × SizePass) (off size : ℕ) : Prop :=
  e.1 ≤ off ∧ off < stop e ∨ off ≤ e.1 ∧ e.1 < off + size

/-- `e` contains the whole request. -/
def Contains (e : ℕ × SizePass) (off size : ℕ) : Prop :=
  e.1 ≤ off ∧ off < stop e ∧ off + size ≤ stop e

variable {m : RangeMap} {addr size off k : ℕ} {pass : ℤ} {e : ℕ × SizePass}

theorem Valid.append {l l' : RangeMap} (h : Valid (l ++ l')) : Valid l ∧ Valid l' :=
  ⟨⟨(List.pairwise_append.mp h.pairwise).1, fun e he => h.fits e (List.mem_append_left l' he)⟩,
    ⟨(List.pairwise_append.mp h.pairwise).2.1, fun e he => h.fits e (List.mem_append_right l he)⟩⟩

/-- What the walk has done from `[addr, addr + size)` on: it has absorbed `met`, which start before
the end, and left `rest`, which start after the new end. -/
structure Absorbed (addr size : ℕ) (pass : ℤ) (intersect : ℕ) (met rest : RangeMap) (size' : ℕ)
    (pass' : ℤ) (intersect' : ℕ) : Prop where
  met_lt : ∀ e ∈ met, e.1 < addr + size
  rest_ge : ∀ e ∈ rest, addr + size' ≤ e.1
  size_le : size ≤ size'
  stop_le : ∀ e ∈ met, stop e ≤ addr + size'
  reached : size' = size ∨ ∃ e ∈ met, stop e = addr + size'
  intersect : intersect' = 1 ∧ (∃ e ∈ met, e.2.pass < pass) ∨
    intersect' = intersect ∧ ∀ e ∈ met, pass ≤ e.2.pass
  pass_le : pass' ≤ pass ∧ ∀ e ∈ met, pass' ≤ e.2.pass
  pass_mem : pass' = pass ∨ ∃ e ∈ met, e.2.pass = pass'

theorem absorb_spec {l : RangeMap} (hl : Valid l) (hle : ∀ e ∈ l, addr ≤ e.1) (size : ℕ) (pass : ℤ)
    (intersect : ℕ) : ∃ met rest size' pass' intersect', l = met ++ rest ∧
      absorb addr size pass intersect l = ((size', pass', intersect'), rest) ∧
      Absorbed addr size pass intersect met rest size' pass' intersect' := by
  induction l generalizing size pass intersect with
  | nil =>
    refine ⟨[], [], size, pass, intersect, rfl, rfl, ?_⟩
    constructor
    all_goals simp
  | cons e l ih =>
    obtain ⟨hfirst, hl'⟩ := List.pairwise_cons.mp hl.pairwise
    obtain ⟨k, r⟩ := e
    have hk : addr ≤ k := hle (k, r) List.mem_cons_self
    have hfits := hl.fits (k, r) List.mem_cons_self
    have hrel : wrappingSub k addr = k - addr := wrappingSub_of_le hk hfits.1
    unfold absorb
    dsimp only
    rw [hrel]
    by_cases hlt : k - addr < size
    · rw [if_pos hlt]
      obtain ⟨met, rest, size', pass', intersect', rfl, hrun, h⟩ := ih
        ⟨hl', fun e he => hl.fits e (List.mem_cons_of_mem _ he)⟩
        (fun e he => hle e (List.mem_cons_of_mem _ he))
        (if size < k - addr + r.size then k - addr + r.size else size)
        (if r.pass < pass then r.pass else pass) (if r.pass < pass then 1 else intersect)
      refine ⟨(k, r) :: met, rest, size', pass', intersect', rfl, hrun, ?_⟩
      have hstop : stop (k, r) = k + r.size := rfl
      have hsize := h.size_le
      constructor
      · intro e he
        obtain rfl | he := List.mem_cons.mp he
        · change k < addr + size
          omega
        · -- a range that starts in the extended one starts in it before, the ranges are apart
          have hmet := h.met_lt e he
          have happart := (hfirst e (List.mem_append_left _ he)).2
          rw [hstop] at happart
          split_ifs at hmet
          all_goals omega
      · exact h.rest_ge
      · split_ifs at hsize
        all_goals omega
      · intro e he
        obtain rfl | he := List.mem_cons.mp he
        · rw [hstop]
          split_ifs at hsize
          all_goals omega
        · exact h.stop_le e he
      · obtain hreached | ⟨e, he, hreached⟩ := h.reached
        · split_ifs at hreached with hext
          · refine .inr ⟨(k, r), List.mem_cons_self, ?_⟩
            rw [hstop]
            omega
          · exact .inl hreached
        · exact .inr ⟨e, List.mem_cons_of_mem _ he, hreached⟩
      · obtain ⟨hone, e, he, hpass⟩ | ⟨hsame, hpass⟩ := h.intersect
        · refine .inl ⟨hone, ?_⟩
          split_ifs at hpass with hr
          · exact ⟨(k, r), List.mem_cons_self, hr⟩
          · exact ⟨e, List.mem_cons_of_mem _ he, hpass⟩
        · split_ifs at hsame hpass with hr
          · exact .inl ⟨hsame, (k, r), List.mem_cons_self, hr⟩
          · refine .inr ⟨hsame, fun e he => ?_⟩
            obtain rfl | he := List.mem_cons.mp he
            · exact not_lt.mp hr
            · exact hpass e he
      · obtain ⟨hle, hmet⟩ := h.pass_le
        refine ⟨hle.trans (by split_ifs <;> omega), fun e he => ?_⟩
        obtain rfl | he := List.mem_cons.mp he
        · exact hle.trans (by dsimp only; split_ifs <;> omega)
        · exact hmet e he
      · obtain hsame | ⟨e, he, hpass⟩ := h.pass_mem
        · split_ifs at hsame with hr
          · exact .inr ⟨(k, r), List.mem_cons_self, hsame.symm⟩
          · exact .inl hsame
        · exact .inr ⟨e, List.mem_cons_of_mem _ he, hpass⟩
    · rw [if_neg hlt]
      refine ⟨[], (k, r) :: l, size, pass, intersect, rfl, rfl, ?_⟩
      constructor
      · simp
      · intro e he
        obtain rfl | he := List.mem_cons.mp he
        · change addr + size ≤ k
          omega
        · have := (hfirst e he).1
          change k < e.1 at this
          omega
      all_goals simp

/-! Where the walk starts. -/

theorem Valid.keys_lt {l l' : RangeMap} (h : Valid (l ++ l')) {e' : ℕ × SizePass} (he : e ∈ l)
    (he' : e' ∈ l') : Before e e' := (List.pairwise_append.mp h.pairwise).2.2 e he e' he'

/-- A sorted list falls apart at an address. -/
theorem Valid.exists_split (h : Valid m) (off : ℕ) :
    ∃ l l', m = l ++ l' ∧ (∀ e ∈ l, e.1 < off) ∧ ∀ e ∈ l', off ≤ e.1 := by
  induction m with
  | nil => exact ⟨[], [], rfl, by simp, by simp⟩
  | cons e m ih =>
    obtain ⟨hfirst, hm⟩ := List.pairwise_cons.mp h.pairwise
    by_cases hlt : e.1 < off
    · obtain ⟨l, l', rfl, hl, hl'⟩ := ih ⟨hm, fun e he => h.fits e (List.mem_cons_of_mem _ he)⟩
      refine ⟨e :: l, l', rfl, fun x hx => ?_, hl'⟩
      obtain rfl | hx := List.mem_cons.mp hx
      · exact hlt
      · exact hl x hx
    · refine ⟨[], e :: m, rfl, by simp, fun x hx => ?_⟩
      obtain rfl | hx := List.mem_cons.mp hx
      · exact not_lt.mp hlt
      · have := (hfirst x hx).1
        omega

theorem find?_eq_head? {p : ℕ × SizePass → Bool} {l l' : RangeMap} (hl : ∀ e ∈ l, p e = false)
    (hl' : ∀ e ∈ l', p e = true) : (l ++ l').find? p = l'.head? := by
  rw [List.find?_append, List.find?_eq_none.mpr fun e he => by rw [hl e he]; simp, Option.none_or]
  cases l' with
  | nil => rfl
  | cons e l' => rw [List.find?_cons_of_pos (hl' e List.mem_cons_self), List.head?_cons]

theorem after_eq {l l' : RangeMap} (hl : ∀ e ∈ l, e.1 ≤ k) (hl' : ∀ e ∈ l', k < e.1) :
    after (l ++ l') k = l'.head? :=
  find?_eq_head? (fun e he => by simpa using hl e he) fun e he => by simpa using hl' e he

theorem since_eq {l l' : RangeMap} (hl : ∀ e ∈ l, e.1 < off) (hl' : ∀ e ∈ l', off ≤ e.1) :
    since (l ++ l') off = l'.head? :=
  find?_eq_head? (fun e he => by simpa using hl e he) fun e he => by simpa using hl' e he

theorem before_eq {l l' : RangeMap} (hl : ∀ e ∈ l, e.1 < off) (hl' : ∀ e ∈ l', off ≤ e.1) :
    before (l ++ l') off = l.getLast? := by
  unfold before
  rw [List.filter_append, List.filter_eq_self.mpr fun e he => by simpa using hl e he,
    List.filter_eq_nil_iff.mpr fun e he => by simpa using hl' e he, List.append_nil]

/-- The walk from the first range of `l'` on. -/
theorem mergeFrom_eq {l l' : RangeMap} (h : Valid (l ++ l')) (addr size : ℕ) (pass : ℤ)
    (intersect : ℕ) : mergeFrom (l ++ l') l'.head? addr size pass intersect =
      let ((size, pass, intersect), rest) := absorb addr size pass intersect l'
      (KeyMap.insert addr ⟨size % 2 ^ 32, pass⟩ (l ++ rest), addr, size % 2 ^ 32, intersect) := by
  have hsplit : (l ++ l').filter (fun e => l'.head?.all fun c => e.1 < c.1) = l ∧
      (l ++ l').filter (fun e => l'.head?.any fun c => c.1 ≤ e.1) = l' := by
    cases l' with
    | nil =>
      rw [List.append_nil]
      exact ⟨List.filter_eq_self.mpr fun _ _ => rfl, List.filter_eq_nil_iff.mpr fun _ _ => nofun⟩
    | cons c l' =>
      have hl : ∀ e ∈ l, e.1 < c.1 := fun e he => (h.keys_lt he List.mem_cons_self).1
      have hl' : ∀ e ∈ c :: l', c.1 ≤ e.1 := fun e he => by
        obtain rfl | he := List.mem_cons.mp he
        · exact le_rfl
        · exact ((List.pairwise_cons.mp h.append.2.pairwise).1 e he).1.le
      simp only [List.head?_cons, Option.all_some, Option.any_some, List.filter_append]
      refine ⟨?_, ?_⟩
      · rw [List.filter_eq_self.mpr fun e he => by simpa using hl e he,
          List.filter_eq_nil_iff.mpr fun e he => by simpa using hl' e he, List.append_nil]
      · rw [List.filter_eq_nil_iff.mpr fun e he => by simpa using hl e he,
          List.filter_eq_self.mpr fun e he => by simpa using hl' e he, List.nil_append]
  unfold mergeFrom
  rw [hsplit.1, hsplit.2]

/-! What a call does. -/

/-- The request has become the range `[addr, stop')`: the ranges `met` overlap the request and are
merged into it, those in `pre` end before and those in `post` start after. -/
structure Grown (m : RangeMap) (off size : ℕ) (pass : ℤ) (pre met post : RangeMap) (addr stop' : ℕ)
    (pass' : ℤ) (intersect : ℕ) : Prop where
  split : m = pre ++ met ++ post
  lo : addr ≤ off
  hi : off + size ≤ stop'
  pre_lt : ∀ e ∈ pre, e.1 < addr ∧ stop e ≤ addr
  post_ge : ∀ e ∈ post, stop' ≤ e.1
  met_mem : ∀ e ∈ met, addr ≤ e.1 ∧ stop e ≤ stop' ∧ Meets e off size
  lo_mem : addr = off ∨ ∃ e ∈ met, e.1 = addr ∧ off < stop e
  hi_mem : stop' = off + size ∨ ∃ e ∈ met, stop e = stop'
  code : intersect = 1 ∧ (∃ e ∈ met, e.2.pass < pass) ∨
    intersect = 0 ∧ ∀ e ∈ met, pass ≤ e.2.pass
  pass_le : pass' ≤ pass ∧ ∀ e ∈ met, pass' ≤ e.2.pass
  pass_mem : pass' = pass ∨ ∃ e ∈ met, e.2.pass = pass'
  not_contained : ∀ e ∈ m, ¬Contains e off size

/-- The answer for a request that has grown. -/
def grownResult (pre post : RangeMap) (addr stop' : ℕ) (pass' : ℤ) (intersect : ℕ) :
    RangeMap × ℕ × ℕ × ℕ :=
  (KeyMap.insert addr ⟨(stop' - addr) % 2 ^ 32, pass'⟩ (pre ++ post), addr,
    (stop' - addr) % 2 ^ 32, intersect)

/-- No range contains `off`: the walk starts from the request itself. -/
theorem mergeFrom_grown {l l' : RangeMap} (h : Valid (l ++ l'))
    (hl : ∀ e ∈ l, e.1 < off ∧ stop e ≤ off)
    (hl' : ∀ e ∈ l', off ≤ e.1 ∧ ¬(e.1 = off ∧ off < stop e)) :
    ∃ pre met post stop' pass' i, Grown (l ++ l') off size pass pre met post off stop' pass' i ∧
      mergeFrom (l ++ l') l'.head? off size pass 0 = grownResult pre post off stop' pass' i := by
  obtain ⟨met, rest, size', pass', i, hsplit, hrun, habs⟩ :=
    (@absorb_spec off) h.append.2 (fun e he => (hl' e he).1) size pass 0
  refine ⟨l, met, rest, off + size', pass', i, ?_, ?_⟩
  · have hmem : ∀ e ∈ met, e ∈ l' := fun e he => by
      rw [hsplit]
      exact List.mem_append_left _ he
    constructor
    · rw [hsplit, List.append_assoc]
    · exact le_rfl
    · exact Nat.add_le_add_left habs.size_le off
    · exact hl
    · exact habs.rest_ge
    · intro e he
      have hle := (hl' e (hmem e he)).1
      exact ⟨hle, habs.stop_le e he, .inr ⟨hle, habs.met_lt e he⟩⟩
    · exact .inl rfl
    · obtain hreached | hreached := habs.reached
      · exact .inl (by rw [hreached])
      · exact .inr hreached
    · exact habs.intersect
    · exact habs.pass_le
    · exact habs.pass_mem
    · rintro e he ⟨hle, hlt, -⟩
      obtain he | he := List.mem_append.mp he
      · have := (hl e he).2
        omega
      · have := hl' e he
        exact this.2 ⟨by omega, hlt⟩
  · rw [mergeFrom_eq h, hrun]
    unfold grownResult
    rw [Nat.add_sub_cancel_left]

/-- The range `d` contains `off` but not the whole request: the walk starts from their union. -/
theorem mergeFrom_grown_of_contains {l l' : RangeMap} {d : ℕ × SizePass} (h : Valid (l ++ d :: l'))
    (hd : d.1 ≤ off ∧ off < stop d) (hend : stop d < off + size) :
    ∃ pre met post stop' pass' i, Grown (l ++ d :: l') off size pass pre met post d.1 stop' pass' i ∧
      mergeFrom (KeyMap.erase d.1 (l ++ d :: l')) (after (l ++ d :: l') d.1) d.1
        (size + (off - d.1)) (if d.2.pass < pass then d.2.pass else pass)
        (if d.2.pass < pass then 1 else 0) = grownResult pre post d.1 stop' pass' i := by
  obtain ⟨hl, hl'⟩ := h.append
  obtain ⟨hnext, hl'⟩ := List.pairwise_cons.mp hl'.pairwise
  have hprev : ∀ e ∈ l, Before e d := fun e he => h.keys_lt he List.mem_cons_self
  have hvalid' : Valid l' := ⟨hl', fun e he => h.fits e (by simp [he])⟩
  have hvalid : Valid (l ++ l') := by
    refine ⟨List.pairwise_append.mpr ⟨hl.pairwise, hl', fun e he e' he' => ?_⟩, fun e he => ?_⟩
    · exact h.keys_lt he (List.mem_cons_of_mem _ he')
    · obtain he | he := List.mem_append.mp he
      · exact hl.fits e he
      · exact hvalid'.fits e he
  have herase : KeyMap.erase d.1 (l ++ d :: l') = l ++ l' := by
    unfold KeyMap.erase
    rw [List.filter_append, List.filter_cons_of_neg (by simp),
      List.filter_eq_self.mpr fun e he => by simpa using (hprev e he).1.ne,
      List.filter_eq_self.mpr fun e he => by simpa using (hnext e he).1.ne']
  have hafter : after (l ++ d :: l') d.1 = l'.head? := by
    rw [show l ++ d :: l' = (l ++ [d]) ++ l' by simp]
    refine after_eq (fun e he => ?_) fun e he => (hnext e he).1
    obtain he | he := List.mem_append.mp he
    · exact (hprev e he).1.le
    · rw [List.mem_singleton.mp he]
  have hstart : d.1 + (size + (off - d.1)) = off + size := by omega
  obtain ⟨met, rest, size', pass', i, hsplit, hrun, habs⟩ :=
    (@absorb_spec d.1) hvalid' (fun e he => (hnext e he).1.le) (size + (off - d.1))
      (if d.2.pass < pass then d.2.pass else pass) (if d.2.pass < pass then 1 else 0)
  have hmem : ∀ e ∈ met, Before d e := fun e he => hnext e (by rw [hsplit]; simp [he])
  have hle := habs.size_le
  refine ⟨l, d :: met, rest, d.1 + size', pass', i, ?_, ?_⟩
  · constructor
    · rw [hsplit]
      simp
    · exact hd.1
    · omega
    · exact hprev
    · exact habs.rest_ge
    · intro e he
      obtain rfl | he := List.mem_cons.mp he
      · exact ⟨le_rfl, by omega, .inl hd⟩
      · have hbefore := hmem e he
        have hlt := habs.met_lt e he
        exact ⟨hbefore.1.le, habs.stop_le e he, .inr ⟨by have := hbefore.2; omega, by omega⟩⟩
    · exact .inr ⟨d, List.mem_cons_self, rfl, hd.2⟩
    · obtain hreached | ⟨e, he, hreached⟩ := habs.reached
      · exact .inl (by omega)
      · exact .inr ⟨e, List.mem_cons_of_mem _ he, hreached⟩
    · obtain ⟨hone, e, he, hpass⟩ | ⟨hsame, hpass⟩ := habs.intersect
      · refine .inl ⟨hone, ?_⟩
        split_ifs at hpass with hr
        · exact ⟨d, List.mem_cons_self, hr⟩
        · exact ⟨e, List.mem_cons_of_mem _ he, hpass⟩
      · split_ifs at hsame hpass with hr
        · exact .inl ⟨hsame, d, List.mem_cons_self, hr⟩
        · refine .inr ⟨hsame, fun e he => ?_⟩
          obtain rfl | he := List.mem_cons.mp he
          · exact not_lt.mp hr
          · exact hpass e he
    · obtain ⟨hle, hmet⟩ := habs.pass_le
      refine ⟨hle.trans (by split_ifs <;> omega), fun e he => ?_⟩
      obtain rfl | he := List.mem_cons.mp he
      · exact hle.trans (by split_ifs <;> omega)
      · exact hmet e he
    · obtain hsame | ⟨e, he, hpass⟩ := habs.pass_mem
      · split_ifs at hsame with hr
        · exact .inr ⟨d, List.mem_cons_self, hsame.symm⟩
        · exact .inl hsame
      · exact .inr ⟨e, List.mem_cons_of_mem _ he, hpass⟩
    · rintro e he ⟨hle, hlt, hin⟩
      obtain he | he := List.mem_append.mp he
      · have := (hprev e he).2
        omega
      · obtain rfl | he := List.mem_cons.mp he
        · omega
        · have := (hnext e he).2
          omega
  · rw [herase, hafter, mergeFrom_eq hvalid, hrun]
    unfold grownResult
    rw [Nat.add_sub_cancel_left]

/-- No range starts before the request, and the first one starts in it. -/
def Skips (m : RangeMap) (off size : ℕ) : Prop :=
  ∃ e, m.head? = some e ∧ off ≤ e.1 ∧ ¬(e.1 = off ∧ off < stop e) ∧ e.1 < off + size

/-- The walk has nothing to do where all ranges start after the request. -/
theorem mergeFrom_skipped {d : ℕ × SizePass} (h : Valid (d :: m)) (hle : off + size ≤ d.1)
    (hd : ¬(d.1 = off ∧ off < stop d)) :
    ∃ pre met post stop' pass' i, Grown (d :: m) off size pass pre met post off stop' pass' i ∧
      mergeFrom (d :: m) m.head? off size pass 0 = grownResult pre post off stop' pass' i := by
  have hnext := (List.pairwise_cons.mp h.pairwise).1
  have hge : ∀ e ∈ d :: m, off + size ≤ e.1 := fun e he => by
    obtain rfl | he := List.mem_cons.mp he
    · exact hle
    · exact hle.trans (hnext e he).1.le
  obtain ⟨met, rest, size', pass', i, hsplit, hrun, habs⟩ :=
    (@absorb_spec off) (Valid.append (l := [d]) h).2
      (fun e he => (Nat.le_add_right _ _).trans (hge e (List.mem_cons_of_mem _ he))) size pass 0
  have hmet : met = [] := List.eq_nil_iff_forall_not_mem.mpr fun e he =>
    absurd (habs.met_lt e he) (not_lt.mpr (hge e (by rw [hsplit]; simp [he])))
  subst hmet
  rw [List.nil_append] at hsplit
  subst hsplit
  have hsize : size' = size := by simpa using habs.reached
  refine ⟨[], [], d :: m, off + size, pass', i, ?_, ?_⟩
  · constructor
    · rfl
    · exact le_rfl
    · exact le_rfl
    · simp
    · exact hge
    · simp
    · exact .inl rfl
    · exact .inl rfl
    · exact habs.intersect
    · exact habs.pass_le
    · exact habs.pass_mem
    · rintro e he ⟨hle', hlt, -⟩
      have := hge e he
      obtain rfl | he := List.mem_cons.mp he
      · exact hd ⟨by omega, hlt⟩
      · have := (hnext e he).1
        omega
  · have hrun' := mergeFrom_eq (l := [d]) h off size pass 0
    rw [List.singleton_append] at hrun'
    rw [hrun', hrun, hsize]
    unfold grownResult
    rw [Nat.add_sub_cancel_left]
    rfl

/-- The range the walk starts from. -/
def start (m : RangeMap) (off : ℕ) : Option (ℕ × SizePass) :=
  ((m.before off).or (m.since off)).bind fun e =>
    if e.2.size ≤ wrappingSub off e.1 then m.after e.1 else some e

/-- Only the offset of a range's own byte is less than its size away. -/
theorem size_le_wrappingSub_iff (he : e.1 < 2 ^ 64 ∧ stop e ≤ 2 ^ 64) (hoff : off < 2 ^ 64) :
    e.2.size ≤ wrappingSub off e.1 ↔ ¬(e.1 ≤ off ∧ off < stop e) := by
  have hstop : stop e = e.1 + e.2.size := rfl
  by_cases hle : e.1 ≤ off
  · rw [wrappingSub_of_le hle hoff]
    omega
  · rw [wrappingSub_of_lt (not_le.mp hle)]
    omega

/-- The two ways a call ends. -/
def Contained (m : RangeMap) (off size : ℕ) (pass : ℤ) (r : RangeMap × ℕ × ℕ × ℕ) : Prop :=
  ∃ d ∈ m, Contains d off size ∧ r = (m, d.1, d.2.size, if d.2.pass < pass then 2 else 0)

def Merged (m : RangeMap) (off size : ℕ) (pass : ℤ) (r : RangeMap × ℕ × ℕ × ℕ) : Prop :=
  ∃ pre met post addr stop' pass' i, Grown m off size pass pre met post addr stop' pass' i ∧
    r = grownResult pre post addr stop' pass' i

theorem add_of_contains {l l' : RangeMap} {d : ℕ × SizePass} (h : Valid (l ++ d :: l'))
    (hoff : off < 2 ^ 64) (hstart : start (l ++ d :: l') off = some d)
    (hd : d.1 ≤ off ∧ off < stop d) :
    Contained (l ++ d :: l') off size pass (add (l ++ d :: l') off size pass) ∨
      Merged (l ++ d :: l') off size pass (add (l ++ d :: l') off size pass) := by
  have hstop : stop d = d.1 + d.2.size := rfl
  have hin : wrappingSub off d.1 = off - d.1 := wrappingSub_of_le hd.1 hoff
  have hmem : d ∈ l ++ d :: l' := List.mem_append_right _ List.mem_cons_self
  unfold start at hstart
  unfold add
  dsimp only
  rw [hstart]
  dsimp only
  rw [hin, if_pos (by omega)]
  by_cases hend : off - d.1 + size ≤ d.2.size
  · rw [if_pos hend]
    exact .inl ⟨d, hmem, ⟨hd.1, hd.2, by omega⟩, rfl⟩
  · rw [if_neg hend]
    obtain ⟨pre, met, post, stop', pass', i, hgrown, hrun⟩ :=
      (@mergeFrom_grown_of_contains _ _ pass) h hd (by omega : stop d < off + size)
    exact .inr ⟨pre, met, post, d.1, stop', pass', i, hgrown, hrun⟩

theorem add_of_not_contains (h : Valid m) (hoff : off < 2 ^ 64) {cur : Option (ℕ × SizePass)}
    (hstart : start m off = cur) (hcur : ∀ e ∈ cur, e ∈ m ∧ ¬(e.1 ≤ off ∧ off < stop e)) :
    add m off size pass = mergeFrom m cur off size pass 0 := by
  unfold start at hstart
  unfold add
  dsimp only
  rw [hstart]
  cases cur with
  | none => rfl
  | some e =>
    obtain ⟨he, hnot⟩ := hcur e rfl
    have hsize := (size_le_wrappingSub_iff (h.fits e he) hoff).mpr hnot
    exact if_neg (not_lt.mpr hsize)

theorem start_of_getLast? {l l' : RangeMap} {p : ℕ × SizePass} (h : Valid (l ++ p :: l'))
    (hp : p.1 < off) (hl' : ∀ e ∈ l', off ≤ e.1) (hoff : off < 2 ^ 64) :
    start (l ++ p :: l') off = if off < stop p then some p else l'.head? := by
  have hl : ∀ e ∈ l ++ [p], e.1 ≤ p.1 := fun e he => by
    obtain he | he := List.mem_append.mp he
    · exact (h.keys_lt he List.mem_cons_self).1.le
    · rw [List.mem_singleton.mp he]
  have hsplit : l ++ p :: l' = (l ++ [p]) ++ l' := by simp
  have hbefore : before (l ++ p :: l') off = some p := by
    rw [hsplit, before_eq (fun e he => (hl e he).trans_lt hp) hl', List.getLast?_concat]
  have hafter : after (l ++ p :: l') p.1 = l'.head? := by
    rw [hsplit]
    exact after_eq hl fun e he => hp.trans_le (hl' e he)
  have hsize := size_le_wrappingSub_iff (h.fits p (by simp)) hoff
  unfold start
  rw [hbefore, Option.some_or, Option.bind_some, hafter]
  by_cases hin : off < stop p
  · rw [if_pos hin, if_neg fun hle => hsize.mp hle ⟨hp.le, hin⟩]
  · rw [if_neg hin, if_pos (hsize.mpr fun hle => hin hle.2)]

theorem start_of_head {l' : RangeMap} {p : ℕ × SizePass} (h : Valid (p :: l'))
    (hp : off ≤ p.1) (hoff : off < 2 ^ 64) :
    start (p :: l') off = if p.1 = off ∧ off < stop p then some p else l'.head? := by
  have hnext := (List.pairwise_cons.mp h.pairwise).1
  have hge : ∀ e ∈ p :: l', off ≤ e.1 := fun e he => by
    obtain rfl | he := List.mem_cons.mp he
    · exact hp
    · exact hp.trans (hnext e he).1.le
  have hbefore : before (p :: l') off = none := before_eq (l := []) (by simp) hge
  have hsince : since (p :: l') off = some p := since_eq (l := []) (by simp) hge
  have hafter : after (p :: l') p.1 = l'.head? :=
    after_eq (l := [p]) (by simp) fun e he => (hnext e he).1
  have hsize := size_le_wrappingSub_iff (h.fits p (by simp)) hoff
  unfold start
  rw [hbefore, hsince, Option.none_or, Option.bind_some, hafter]
  by_cases hin : p.1 = off ∧ off < stop p
  · rw [if_pos hin, if_neg fun hle => hsize.mp hle ⟨hin.1.le, hin.2⟩]
  · rw [if_neg hin, if_pos (hsize.mpr fun hle => hin ⟨by omega, hle.2⟩)]

/-- The request is in a recorded range, or it grows to a new one. -/
theorem add_cases (h : Valid m) (hoff : off < 2 ^ 64) (hskip : ¬Skips m off size) :
    Contained m off size pass (m.add off size pass) ∨
      Merged m off size pass (m.add off size pass) := by
  obtain ⟨l, l', rfl, hl, hl'⟩ := h.exists_split off
  -- no range before `off` contains it: the walk starts at the request, unless `l'` starts there
  have happart (hpre : ∀ e ∈ l, stop e ≤ off) (hstart : start (l ++ l') off = l'.head?)
      (hfirst : ∀ e ∈ l', ¬(e.1 = off ∧ off < stop e)) :
      Merged (l ++ l') off size pass ((l ++ l').add off size pass) := by
    rw [add_of_not_contains h hoff hstart fun e he => ?_]
    · obtain ⟨pre, met, post, stop', pass', i, hgrown, hrun⟩ :=
        (@mergeFrom_grown size _ pass) h (fun e he => ⟨hl e he, hpre e he⟩) fun e he => ⟨hl' e he, hfirst e he⟩
      exact ⟨pre, met, post, off, stop', pass', i, hgrown, hrun⟩
    · have hmem := List.mem_of_mem_head? he
      refine ⟨List.mem_append_right _ hmem, fun hle => hfirst e hmem ⟨?_, hle.2⟩⟩
      exact le_antisymm hle.1 (hl' e hmem)
  obtain rfl | ⟨l, p, rfl⟩ := l.eq_nil_or_concat'
  · cases l' with
    | nil => exact .inr (happart (by simp) rfl (by simp))
    | cons p l' =>
      have hstart := start_of_head h (hl' p List.mem_cons_self) hoff
      by_cases hp : p.1 = off ∧ off < stop p
      · rw [if_pos hp] at hstart
        exact add_of_contains (l := []) h hoff hstart ⟨hp.1.le, hp.2⟩
      · rw [if_neg hp] at hstart
        have hle : off + size ≤ p.1 := by
          by_contra hlt
          exact hskip ⟨p, rfl, hl' p List.mem_cons_self, hp, not_le.mp hlt⟩
        refine .inr ?_
        rw [List.nil_append, add_of_not_contains (m := p :: l') h hoff hstart fun e he => ?_]
        · obtain ⟨pre, met, post, stop', pass', i, hgrown, hrun⟩ := mergeFrom_skipped h hle hp
          exact ⟨pre, met, post, off, stop', pass', i, hgrown, hrun⟩
        · have hmem := List.mem_of_mem_head? he
          have hlt := ((List.pairwise_cons.mp h.pairwise).1 e hmem).1
          have := hl' p List.mem_cons_self
          exact ⟨List.mem_cons_of_mem _ hmem, by omega⟩
  · have hp : p.1 < off := hl p (by simp)
    have hassoc : l ++ [p] ++ l' = l ++ p :: l' := by simp
    have hstart := start_of_getLast? (hassoc ▸ h) hp hl' hoff
    by_cases hin : off < stop p
    · rw [if_pos hin] at hstart
      rw [hassoc]
      exact add_of_contains (hassoc ▸ h) hoff hstart ⟨hp.le, hin⟩
    · rw [if_neg hin, ← hassoc] at hstart
      have hpre : ∀ e ∈ l ++ [p], stop e ≤ off := fun e he => by
        obtain he | he := List.mem_append.mp he
        · have hbefore := h.append.1.keys_lt he (List.mem_singleton_self p)
          exact hbefore.2.trans hp.le
        · rw [List.mem_singleton.mp he]
          exact not_lt.mp hin
      by_cases hfirst : ∃ e ∈ l'.head?, e.1 = off ∧ off < stop e
      · obtain ⟨e, he, heq, hlt⟩ := hfirst
        rw [he] at hstart
        obtain ⟨t, rfl⟩ := List.head?_eq_some_iff.mp he
        exact add_of_contains h hoff hstart ⟨heq.le, hlt⟩
      · refine .inr (happart hpre hstart fun e he heq => hfirst ?_)
        cases l' with
        | nil => simp at he
        | cons e' t =>
          obtain rfl | ht := List.mem_cons.mp he
          · exact ⟨e, rfl, heq⟩
          · have hlt := ((List.pairwise_cons.mp h.append.2.pairwise).1 e ht).1
            have := hl' e' List.mem_cons_self
            omega

end RangeMap
end Mosura
