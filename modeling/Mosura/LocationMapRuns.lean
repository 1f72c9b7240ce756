import Mosura.LocationMapSound

/-! The location map over whole runs: disjoint ranges that cover what was added. -/

namespace Mosura
namespace RangeMap

variable {m : RangeMap} {addr size off k : ℕ} {pass : ℤ} {e : ℕ × SizePass}

/-- A range set between those before it and those after it; only an empty range can be replaced. -/
theorem insert_between {pre post : RangeMap} {a : SizePass} (hpost : Valid post)
    (hpre : ∀ e ∈ pre, e.1 < k) (hge : ∀ e ∈ post, k + a.size ≤ e.1)
    (hempty : ∀ e ∈ post, e.1 = k → e.2.size = 0) :
    ∃ post', KeyMap.insert k a (pre ++ post) = pre ++ (k, a) :: post' ∧ Valid post' ∧
      (∀ e ∈ post', e ∈ post ∧ k < e.1) ∧ ∀ e ∈ post, e ∈ post' ∨ e.2.size = 0 := by
  induction pre with
  | nil =>
    rw [List.nil_append]
    cases post with
    | nil => exact ⟨[], rfl, hpost, by simp, by simp⟩
    | cons d post =>
      obtain ⟨hnext, hrest⟩ := List.pairwise_cons.mp hpost.pairwise
      have hd := hge d List.mem_cons_self
      unfold KeyMap.insert
      by_cases hlt : k < d.1
      · rw [if_pos hlt]
        refine ⟨d :: post, rfl, hpost, fun e he => ⟨he, ?_⟩, fun e he => .inl he⟩
        obtain rfl | he := List.mem_cons.mp he
        · exact hlt
        · exact hlt.trans (hnext e he).1
      · have heq : k = d.1 := by omega
        rw [if_neg hlt, if_pos heq]
        refine ⟨post, rfl, (Valid.append (l := [d]) hpost).2, fun e he => ?_, fun e he => ?_⟩
        · exact ⟨List.mem_cons_of_mem _ he, heq ▸ (hnext e he).1⟩
        · obtain rfl | he := List.mem_cons.mp he
          · exact .inr (hempty e List.mem_cons_self heq.symm)
          · exact .inl he
  | cons d pre ih =>
    obtain ⟨post', hrun, hvalid, hmem, hkept⟩ := ih fun e he => hpre e (List.mem_cons_of_mem _ he)
    have hd := hpre d List.mem_cons_self
    refine ⟨post', ?_, hvalid, hmem, hkept⟩
    rw [List.cons_append, KeyMap.insert, if_neg hd.asymm, if_neg hd.ne', hrun, List.cons_append]

instance (e : ℕ × SizePass) (off size : ℕ) : Decidable (Meets e off size) :=
  inferInstanceAs (Decidable (_ ∧ _ ∨ _ ∧ _))

/-- The bytes of the request and of the ranges that it meets are less than `2 ^ 32` apart. -/
def Fits (m : RangeMap) (off size : ℕ) : Prop :=
  ∀ lo ∈ off :: (m.filter fun e => Meets e off size).map Prod.fst,
    ∀ hi ∈ (off + size) :: (m.filter fun e => Meets e off size).map stop, hi < lo + 2 ^ 32

/-- The request stays in the space, is not passed over, and its merged range fits a `u32`. -/
structure Admits (m : RangeMap) (off size : ℕ) : Prop where
  in_space : off + size ≤ 2 ^ 64
  not_skips : ¬Skips m off size
  fits : Fits m off size

instance (m : RangeMap) (off size : ℕ) : Decidable (Skips m off size) :=
  match m with
  | [] => isFalse (by simp [Skips])
  | e :: _ =>
    decidable_of_iff (off ≤ e.1 ∧ ¬(e.1 = off ∧ off < stop e) ∧ e.1 < off + size) (by simp [Skips])

instance (m : RangeMap) (off size : ℕ) : Decidable (Fits m off size) :=
  inferInstanceAs (Decidable (∀ lo ∈ _, ∀ hi ∈ _, _))

instance (m : RangeMap) (off size : ℕ) : Decidable (Admits m off size) :=
  decidable_of_iff (off + size ≤ 2 ^ 64 ∧ ¬Skips m off size ∧ Fits m off size)
    ⟨fun h => ⟨h.1, h.2.1, h.2.2⟩, fun h => ⟨h.in_space, h.not_skips, h.fits⟩⟩

/-- What a call owes: the ranges stay apart and cover the request too, the answer is a range that
contains the request, and the code says how older ranges meet it. -/
structure Added (m : RangeMap) (off size : ℕ) (pass : ℤ) (m' : RangeMap) (base len code : ℕ) :
    Prop where
  valid : Valid m'
  covers : ∀ x, Covers m' x ↔ Covers m x ∨ off ≤ x ∧ x < off + size
  recorded : ∃ p, (base, ⟨len, p⟩) ∈ m'
  contains : base ≤ off ∧ off + size ≤ base + len
  code : code = 2 ∧ (∃ e ∈ m, Contains e off size ∧ e.2.pass < pass) ∨
    code = 1 ∧ (∀ e ∈ m, ¬Contains e off size) ∧ (∃ e ∈ m, Meets e off size ∧ e.2.pass < pass) ∨
    code = 0 ∧ ∀ e ∈ m, Meets e off size → pass ≤ e.2.pass
  pass_of : ∀ e ∈ m', e ∈ m ∨ (e.1 ≤ off ∧ off + size ≤ stop e ∧ e.2.pass = pass) ∨
    ∃ d ∈ m, e.1 ≤ d.1 ∧ stop d ≤ stop e ∧ d.2.pass = e.2.pass

theorem Valid.eq_of_meets {d : ℕ × SizePass} (h : Valid m) (hd : d ∈ m) (he : e ∈ m)
    (hcontains : Contains d off size) (hmeets : Meets e off size) : e = d := by
  by_contra hne
  obtain ⟨hle, hlt, hend⟩ := hcontains
  have happart : Before e d ∨ Before d e := by
    have hsymm : Std.Symm fun a b => Before a b ∨ Before b a := ⟨fun _ _ => Or.symm⟩
    exact (h.pairwise.imp (S := fun a b => Before a b ∨ Before b a) Or.inl).forall he hd hne
  obtain ⟨hlt', hle'⟩ | ⟨hlt', hle'⟩ := happart
  · obtain hin | hin := hmeets
    all_goals omega
  · obtain hin | hin := hmeets
    all_goals omega

theorem Contained.added (h : Valid m) {r : RangeMap × ℕ × ℕ × ℕ}
    (hr : Contained m off size pass r) :
    Added m off size pass r.1 r.2.1 r.2.2.1 r.2.2.2 := by
  obtain ⟨d, hd, hin, rfl⟩ := hr
  have hstop : stop d = d.1 + d.2.size := rfl
  constructor
  · exact h
  · intro x
    refine (or_iff_left_of_imp fun hx => ⟨d, hd, hin.1.trans hx.1, ?_⟩).symm
    exact hx.2.trans_le hin.2.2
  · exact ⟨d.2.pass, hd⟩
  · exact ⟨hin.1, hin.2.2⟩
  · dsimp only
    by_cases hpass : d.2.pass < pass
    · rw [if_pos hpass]
      exact .inl ⟨rfl, d, hd, hin, hpass⟩
    · rw [if_neg hpass]
      refine .inr (.inr ⟨rfl, fun e he hmeets => ?_⟩)
      rw [h.eq_of_meets hd he hin hmeets]
      exact not_lt.mp hpass
  · exact fun e he => .inl he

theorem Valid.between {pre post : RangeMap} (hpre : Valid pre) (hpost : Valid post)
    (he : e.1 < 2 ^ 64 ∧ stop e ≤ 2 ^ 64) (hbefore : ∀ d ∈ pre, Before d e)
    (hafter : ∀ d ∈ post, Before e d) : Valid (pre ++ e :: post) := by
  constructor
  · refine List.pairwise_append.mpr ⟨hpre.pairwise,
      List.pairwise_cons.mpr ⟨hafter, hpost.pairwise⟩, fun d hd d' hd' => ?_⟩
    obtain rfl | hd' := List.mem_cons.mp hd'
    · exact hbefore d hd
    · have h := hbefore d hd
      have h' := hafter d' hd'
      exact ⟨h.1.trans h'.1, h.2.trans h'.1.le⟩
  · intro d hd
    obtain hd | hd := List.mem_append.mp hd
    · exact hpre.fits d hd
    · obtain rfl | hd := List.mem_cons.mp hd
      · exact he
      · exact hpost.fits d hd

section Grown

variable {pre met post : RangeMap} {stop' : ℕ} {pass' : ℤ} {i : ℕ}

theorem Grown.mem_iff (hg : Grown m off size pass pre met post addr stop' pass' i) :
    e ∈ m ↔ e ∈ pre ∨ e ∈ met ∨ e ∈ post := by
  rw [hg.split, List.append_assoc, List.mem_append, List.mem_append]

theorem Grown.stop_lt (hg : Grown m off size pass pre met post addr stop' pass' i)
    (hfits : Fits m off size) : stop' < addr + 2 ^ 32 := by
  have hmem : ∀ e ∈ met, e ∈ m.filter fun e => Meets e off size := fun e he =>
    List.mem_filter.mpr ⟨hg.mem_iff.mpr (.inr (.inl he)), by simpa using (hg.met_mem e he).2.2⟩
  apply hfits
  · obtain rfl | ⟨e, he, rfl, -⟩ := hg.lo_mem
    · exact List.mem_cons_self
    · exact List.mem_cons_of_mem _ (List.mem_map_of_mem (hmem e he))
  · obtain rfl | ⟨e, he, rfl⟩ := hg.hi_mem
    · exact List.mem_cons_self
    · exact List.mem_cons_of_mem _ (List.mem_map_of_mem (hmem e he))

/-- The new range has the bytes of the request and of the ranges merged into it. -/
theorem Grown.mem_new (hg : Grown m off size pass pre met post addr stop' pass' i) {x : ℕ} :
    addr ≤ x ∧ x < stop' ↔ (∃ e ∈ met, e.1 ≤ x ∧ x < stop e) ∨ off ≤ x ∧ x < off + size := by
  have hlo := hg.lo
  have hhi := hg.hi
  constructor
  · rintro ⟨hle, hlt⟩
    by_cases hx : x < off
    · obtain rfl | ⟨e, he, rfl, hstop⟩ := hg.lo_mem
      · omega
      · exact .inl ⟨e, he, hle, by omega⟩
    · by_cases hx' : x < off + size
      · exact .inr ⟨not_lt.mp hx, hx'⟩
      · obtain rfl | ⟨e, he, rfl⟩ := hg.hi_mem
        · omega
        · refine .inl ⟨e, he, ?_, hlt⟩
          obtain hmeets | hmeets := (hg.met_mem e he).2.2
          all_goals omega
  · rintro (⟨e, he, hle, hlt⟩ | hx)
    · have hmet := hg.met_mem e he
      omega
    · omega

theorem Grown.eq_of_meets (hg : Grown m off size pass pre met post addr stop' pass' i)
    (he : e ∈ m) (hmeets : Meets e off size) : e ∈ met := by
  have hlo := hg.lo
  have hhi := hg.hi
  obtain hpre | hmet | hpost := hg.mem_iff.mp he
  · have := hg.pre_lt e hpre
    unfold Meets at hmeets
    omega
  · exact hmet
  · -- a range after the request meets it only where the request is empty, and is then around it
    have := hg.post_ge e hpost
    have hnot := hg.not_contained e he
    unfold Meets at hmeets
    unfold Contains at hnot
    omega

theorem Grown.added (h : Valid m) (hoff : off < 2 ^ 64) (hend : off + size ≤ 2 ^ 64)
    (hfits : Fits m off size) (hg : Grown m off size pass pre met post addr stop' pass' i) :
    let r := grownResult pre post addr stop' pass' i
    Added m off size pass r.1 r.2.1 r.2.2.1 r.2.2.2 := by
  have hlo := hg.lo
  have hhi := hg.hi
  have hlen : (stop' - addr) % 2 ^ 32 = stop' - addr :=
    Nat.mod_eq_of_lt (by have := hg.stop_lt hfits; omega)
  have hvalid : Valid pre ∧ Valid post := by
    have h' := h
    rw [hg.split] at h'
    exact ⟨h'.append.1.append.1, h'.append.2⟩
  have hstop' : stop' ≤ 2 ^ 64 := by
    obtain rfl | ⟨e, he, rfl⟩ := hg.hi_mem
    · exact hend
    · exact (h.fits e (hg.mem_iff.mpr (.inr (.inl he)))).2
  obtain ⟨post', hrun, hpost', hmem, hkept⟩ := insert_between (k := addr)
    (a := ⟨stop' - addr, pass'⟩) hvalid.2 (fun e he => (hg.pre_lt e he).1)
    (fun e he => by have := hg.post_ge e he; dsimp only; omega) fun e he heq => by
      -- otherwise `e` contains the request
      have hnot := hg.not_contained e (hg.mem_iff.mpr (.inr (.inr he)))
      have := hg.post_ge e he
      have hstop : stop e = e.1 + e.2.size := rfl
      unfold Contains at hnot
      omega
  have hnew : stop (addr, (⟨stop' - addr, pass'⟩ : SizePass)) = stop' := by
    change addr + (stop' - addr) = stop'
    omega
  unfold grownResult
  rw [hlen, hrun]
  constructor
  · refine hvalid.1.between hpost' ⟨by omega, hnew.trans_le hstop'⟩ hg.pre_lt fun e he => ?_
    exact ⟨(hmem e he).2, hnew.trans_le (hg.post_ge e (hmem e he).1)⟩
  · intro x
    constructor
    · rintro ⟨e, he, hx⟩
      obtain he | he := List.mem_append.mp he
      · exact .inl ⟨e, hg.mem_iff.mpr (.inl he), hx⟩
      obtain rfl | he := List.mem_cons.mp he
      · rw [hnew] at hx
        obtain ⟨d, hd, hx⟩ | hx := hg.mem_new.mp hx
        · exact .inl ⟨d, hg.mem_iff.mpr (.inr (.inl hd)), hx⟩
        · exact .inr hx
      · exact .inl ⟨e, hg.mem_iff.mpr (.inr (.inr (hmem e he).1)), hx⟩
    · have hin (hx : addr ≤ x ∧ x < stop') :
          Covers (pre ++ (addr, ⟨stop' - addr, pass'⟩) :: post') x :=
        ⟨_, List.mem_append_right _ List.mem_cons_self, hx.1, hx.2.trans_eq hnew.symm⟩
      rintro (⟨e, he, hx⟩ | hx)
      · obtain hpre | hmet | hpost := hg.mem_iff.mp he
        · exact ⟨e, List.mem_append_left _ hpre, hx⟩
        · exact hin (hg.mem_new.mpr (.inl ⟨e, hmet, hx⟩))
        · obtain he | hzero := hkept e hpost
          · exact ⟨e, List.mem_append_right _ (List.mem_cons_of_mem _ he), hx⟩
          · have hstop : stop e = e.1 + e.2.size := rfl
            omega
      · exact hin (hg.mem_new.mpr (.inr hx))
  · exact ⟨pass', List.mem_append_right _ List.mem_cons_self⟩
  · exact ⟨hlo, by dsimp only; omega⟩
  · obtain ⟨hi, e, he, hpass⟩ | ⟨hi, hpass⟩ := hg.code
    · refine .inr (.inl ⟨hi, hg.not_contained, e, ?_, (hg.met_mem e he).2.2, hpass⟩)
      exact hg.mem_iff.mpr (.inr (.inl he))
    · exact .inr (.inr ⟨hi, fun e he hmeets => hpass e (hg.eq_of_meets he hmeets)⟩)
  · intro e he
    obtain he | he := List.mem_append.mp he
    · exact .inl (hg.mem_iff.mpr (.inl he))
    obtain rfl | he := List.mem_cons.mp he
    · obtain hpass | ⟨d, hd, hpass⟩ := hg.pass_mem
      · exact .inr (.inl ⟨hlo, hhi.trans_eq hnew.symm, hpass⟩)
      · obtain ⟨hle, hle', -⟩ := hg.met_mem d hd
        exact .inr (.inr ⟨d, hg.mem_iff.mpr (.inr (.inl hd)), hle, hle'.trans_eq hnew.symm, hpass⟩)
    · exact .inl (hg.mem_iff.mpr (.inr (.inr (hmem e he).1)))

end Grown

/-- One call on disjoint ranges. -/
theorem Valid.added (h : Valid m) (hoff : off < 2 ^ 64) (hadmits : Admits m off size) :
    let r := m.add off size pass
    Added m off size pass r.1 r.2.1 r.2.2.1 r.2.2.2 := by
  obtain hcontained | ⟨pre, met, post, addr, stop', pass', i, hgrown, hrun⟩ :=
    (@add_cases _ _ _ pass) h hoff hadmits.not_skips
  · exact hcontained.added h
  · rw [hrun]
    exact hgrown.added h hoff hadmits.in_space hadmits.fits

/-- The lookup finds the range that covers the offset. -/
theorem Valid.find_eq (h : Valid m) (hoff : off < 2 ^ 64) :
    (∃ e ∈ m, e.1 ≤ off ∧ off < stop e ∧ m.find off = some e) ∨
      ¬Covers m off ∧ m.find off = none := by
  obtain ⟨l, l', rfl, hl, hl'⟩ := h.exists_split (off + 1)
  have hfilter : (l ++ l').filter (·.1 ≤ off) = l := by
    rw [List.filter_append,
      List.filter_eq_self.mpr fun e he => by simpa using Nat.lt_succ_iff.mp (hl e he),
      List.filter_eq_nil_iff.mpr fun e he => by simpa using Nat.lt_of_succ_le (hl' e he),
      List.append_nil]
  unfold find
  rw [hfilter]
  obtain rfl | ⟨l, p, rfl⟩ := l.eq_nil_or_concat'
  · refine .inr ⟨?_, rfl⟩
    rintro ⟨e, he, hle, -⟩
    have := hl' e he
    omega
  · have hp := hl p (by simp)
    have hmem : p ∈ l ++ [p] ++ l' := by simp
    have hsize := size_le_wrappingSub_iff (h.fits p hmem) hoff
    rw [List.getLast?_concat]
    dsimp only
    by_cases hin : off < stop p
    · have hlt := not_le.mp fun hle => hsize.mp hle ⟨by omega, hin⟩
      exact .inl ⟨p, hmem, by omega, hin, if_pos hlt⟩
    · refine .inr ⟨?_, if_neg (not_lt.mpr (hsize.mpr fun hle => hin hle.2))⟩
      rintro ⟨e, he, hle, hlt⟩
      obtain he | he := List.mem_append.mp he
      · obtain he | he := List.mem_append.mp he
        · have hbefore := h.append.1.keys_lt he (List.mem_singleton_self p)
          have := hbefore.2
          omega
        · rw [List.mem_singleton.mp he] at hlt
          exact hin hlt
      · have := hl' e he
        omega

end RangeMap

namespace LocationMap

open RangeMap

/-- Every call of the sequence is one that its space admits at that point. -/
def Admissible : LocationMap → List AddRequest → Prop
  | _, [] => True
  | m, r :: requests =>
    (m.themap r.space).Admits r.off.toNat r.size.toNat ∧ Admissible (m.add r).1 requests

instance Admissible.decidable : (m : LocationMap) → (requests : List AddRequest) →
    Decidable (Admissible m requests)
  | _, [] => isTrue trivial
  | m, r :: requests =>
    have := Admissible.decidable (m.add r).1 requests
    inferInstanceAs (Decidable (_ ∧ _))

/-- The byte at `x` of the space was requested. -/
def Requested (requests : List AddRequest) (space : SpaceId) (x : ℕ) : Prop :=
  ∃ r ∈ requests, r.space = space ∧ r.off.toNat ≤ x ∧ x < r.off.toNat + r.size.toNat

/-- The pass of a range is that of a request in it. -/
def PassOf (requests : List AddRequest) (space : SpaceId) (e : ℕ × SizePass) : Prop :=
  ∃ r ∈ requests, r.space = space ∧ e.1 ≤ r.off.toNat ∧ r.off.toNat + r.size.toNat ≤ stop e ∧
    e.2.pass = r.pass

/-- What is recorded after a sequence of calls. -/
structure Records (m : LocationMap) (requests : List AddRequest) : Prop where
  valid : ∀ space, Valid (m.themap space)
  covers : ∀ space x, Covers (m.themap space) x ↔ Requested requests space x
  pass_of : ∀ space, ∀ e ∈ m.themap space, PassOf requests space e

/-- What the call `r` owes to the map it is made on. -/
def Answers (m : LocationMap) (r : AddRequest) : Prop :=
  let res := m.add r
  Added (m.themap r.space) r.off.toNat r.size.toNat r.pass (res.1.themap r.space) res.2.1 res.2.2.1
      res.2.2.2 ∧
    ∀ space ≠ r.space, res.1.themap space = m.themap space

theorem records_empty : Records empty [] := by
  constructor
  · exact fun _ => ⟨List.Pairwise.nil, by simp [empty]⟩
  · simp [Covers, Requested, empty]
  · simp [empty]

theorem PassOf.mono {requests requests' : List AddRequest} {space : SpaceId} {d e : ℕ × SizePass}
    (h : PassOf requests space d) (hsub : requests ⊆ requests') (hle : e.1 ≤ d.1)
    (hstop : stop d ≤ stop e) (hpass : d.2.pass = e.2.pass) : PassOf requests' space e := by
  obtain ⟨r, hr, hspace, hlo, hhi, hp⟩ := h
  exact ⟨r, hsub hr, hspace, hle.trans hlo, hhi.trans hstop, hpass ▸ hp⟩

variable {m : LocationMap} {r : AddRequest} {requests : List AddRequest}

theorem Records.answers (h : Records m requests)
    (hadmits : (m.themap r.space).Admits r.off.toNat r.size.toNat) : Answers m r := by
  have hadded := (@Valid.added _ _ _ r.pass) (h.valid r.space) r.off.isLt hadmits
  have hranges : (m.add r).1.themap r.space =
      ((m.themap r.space).add r.off.toNat r.size.toNat r.pass).1 := Function.update_self ..
  unfold Answers
  dsimp only
  rw [hranges]
  exact ⟨hadded, fun space hne => Function.update_of_ne hne _ _⟩

/-- One call keeps the record. -/
theorem Records.add (h : Records m requests) (hanswers : Answers m r) :
    Records (m.add r).1 (requests ++ [r]) := by
  obtain ⟨hadded, hother⟩ := hanswers
  have hsub : requests ⊆ requests ++ [r] := List.subset_append_left _ _
  constructor
  · intro space
    by_cases hspace : space = r.space
    · exact hspace ▸ hadded.valid
    · exact hother space hspace ▸ h.valid space
  · intro space x
    have hrequested : Requested (requests ++ [r]) space x ↔ Requested requests space x ∨
        r.space = space ∧ r.off.toNat ≤ x ∧ x < r.off.toNat + r.size.toNat := by
      simp only [Requested, List.mem_append, List.mem_singleton, or_and_right, exists_or,
        exists_eq_left]
    rw [hrequested, ← h.covers]
    by_cases hspace : space = r.space
    · subst hspace
      rw [hadded.covers x, and_iff_right rfl]
    · rw [hother space hspace]
      exact (or_iff_left fun hr => hspace hr.1.symm).symm
  · intro space e he
    by_cases hspace : space = r.space
    · subst hspace
      obtain hold | ⟨hlo, hhi, hpass⟩ | ⟨d, hd, hlo, hhi, hpass⟩ := hadded.pass_of e he
      · exact (h.pass_of _ e hold).mono hsub le_rfl le_rfl rfl
      · exact ⟨r, by simp, rfl, hlo, hhi, hpass⟩
      · exact (h.pass_of _ d hd).mono hsub hlo hhi hpass
    · rw [hother space hspace] at he
      exact (h.pass_of space e he).mono hsub le_rfl le_rfl rfl

/-- Every run of admitted calls leaves disjoint ranges that cover what was requested, and every
call is answered by a range around its request and the right code. -/
theorem Records.run {more : List AddRequest} (h : Records m requests) (hadm : Admissible m more) :
    Records (m.run more) (requests ++ more) ∧
      ∀ done r rest, more = done ++ r :: rest → Answers (m.run done) r := by
  induction more generalizing m requests with
  | nil =>
    refine ⟨(List.append_nil requests).symm ▸ h, fun done r rest heq => ?_⟩
    exact absurd heq (by simp)
  | cons s more ih =>
    have hanswers := h.answers hadm.1
    obtain ⟨hrecords, hall⟩ := ih (h.add hanswers) hadm.2
    rw [List.append_assoc, List.singleton_append] at hrecords
    refine ⟨hrecords, fun done r rest heq => ?_⟩
    cases done with
    | nil =>
      obtain ⟨rfl, -⟩ := List.cons.inj heq
      exact hanswers
    | cons s' done =>
      obtain ⟨rfl, htail⟩ := List.cons.inj heq
      exact hall done r rest htail

/-- What the lookups say of an offset. -/
def Looked (m : LocationMap) (space : SpaceId) (off : BitVec 64) : Prop :=
  (∃ e ∈ m.themap space, e.1 ≤ off.toNat ∧ off.toNat < stop e ∧
      m.findPass space off = e.2.pass ∧ m.mergedRange space off = some (e.1, e.2.size)) ∨
    ¬Covers (m.themap space) off.toNat ∧ m.findPass space off = -1 ∧ m.mergedRange space off = none

theorem Records.looked (h : Records m requests) (space : SpaceId) (off : BitVec 64) :
    Looked m space off := by
  unfold Looked findPass mergedRange
  obtain ⟨e, he, hle, hlt, hfind⟩ | ⟨hnot, hfind⟩ := (h.valid space).find_eq off.isLt
  · rw [hfind]
    exact .inl ⟨e, he, hle, hlt, rfl, rfl⟩
  · rw [hfind]
    exact .inr ⟨hnot, rfl, rfl⟩

/-- After any sequence of admitted calls the ranges of every space are disjoint and cover what was
requested, and every call of the sequence was answered right. -/
theorem run_disjoint (requests : List AddRequest) (hadm : Admissible empty requests) :
    Records (empty.run requests) requests ∧
      (∀ done r rest, requests = done ++ r :: rest → Answers (empty.run done) r) ∧
      ∀ space off, Looked (empty.run requests) space off := by
  obtain ⟨hrecords, hanswers⟩ := records_empty.run hadm
  exact ⟨hrecords, hanswers, hrecords.looked⟩

/-- Three ranges of two passes are bridged by a fourth request; another space keeps its own. -/
theorem run_disjoint_bridge :
    let requests : List AddRequest := [⟨1, 0, 4, 0⟩, ⟨1, 0x10, 4, 0⟩, ⟨1, 0x18, 8, 1⟩,
      ⟨2, 0x12, 4, 0⟩, ⟨1, 0x12, 8, 1⟩]
    (empty.run requests).themap 1 = [(0, ⟨4, 0⟩), (0x10, ⟨16, 0⟩)] ∧
      Records (empty.run requests) requests ∧
      (∀ done r rest, requests = done ++ r :: rest → Answers (empty.run done) r) ∧
      ∀ space off, Looked (empty.run requests) space off := by
  refine ⟨by decide, run_disjoint _ ?_⟩
  decide +kernel

/-- A request that starts before all ranges and reaches into the first leaves both; one that passes
the end of the space is not found at its other end; one of `2 ^ 32` bytes is recorded as empty. -/
theorem run_not_disjoint :
    (empty.run [⟨1, 0x10, 4, 0⟩, ⟨1, 0xe, 4, 0⟩]).themap 1 = [(0xe, ⟨4, 0⟩), (0x10, ⟨4, 0⟩)] ∧
      ¬Valid ((empty.run [⟨1, 0x10, 4, 0⟩, ⟨1, 0xe, 4, 0⟩]).themap 1) ∧
      (empty.run [⟨1, -4, 8, 0⟩]).mergedRange 1 0 = none ∧
      (empty.run [⟨1, 0, -1, 0⟩, ⟨1, 1, -1, 0⟩]).themap 1 = [(0, ⟨0, 0⟩)] := by
  refine ⟨by decide, fun h => ?_, by decide, by decide⟩
  have hranges : (empty.run [⟨1, 0x10, 4, 0⟩, ⟨1, 0xe, 4, 0⟩]).themap 1 =
    [(0xe, ⟨4, 0⟩), (0x10, ⟨4, 0⟩)] := by decide
  rw [hranges] at h
  have happart := (h.keys_lt (l := [(0xe, ⟨4, 0⟩)]) (List.mem_singleton_self _)
    (List.mem_singleton_self (0x10, (⟨4, 0⟩ : SizePass)))).2
  exact absurd happart (by decide)

end LocationMap
end Mosura
