import Mosura.BooleanMatchSound

/-! The expression a condition is computed by, as `op_flip_in_place_test` walks it: a tree whose every
value has one reader, and whose ops are listed children first. -/

namespace Mosura

namespace OpCode

/-- The ops whose complement is one op. -/
def flipsAlone : OpCode → Bool
  | intEqual | floatEqual | boolNegate | intNotequal | floatNotequal | intSless | intLess
  | intSlessequal | intLessequal => true
  | _ => false

/-- BOOL_AND and BOOL_OR. -/
def isAndOr : OpCode → Bool
  | boolAnd | boolOr => true
  | _ => false

theorem not_isAndOr {c : OpCode} (h : c.flipsAlone = true) : ¬c.isAndOr = true := by
  cases c
  all_goals first
    | decide
    | cases h

end OpCode

namespace Funcdata

variable (f : Funcdata)

/-- The op that alone reads the output of `x`. -/
def soleReader (x : OpId) : Option OpId := (f.op x).output.bind f.loneDescend

/-- `n` times the sole reader. -/
def readerIter : ℕ → OpId → Option OpId
  | 0, x => some x
  | n + 1, x => (f.soleReader x).bind (readerIter n)

/-- `x` computes a condition from the ops of the list, children first. -/
inductive FlipTree : OpId → List OpId → Prop
  | compare {x : OpId} : (f.op x).opcode.flipsAlone = true → FlipTree x [x]
  | connect {x d e : OpId} {a b : VarnodeId} {l l' : List OpId} :
    (f.op x).opcode.isAndOr = true → (f.op x).input 0 = some a → (f.op x).input 1 = some b →
    (f.vn a).defOp = some d → (f.vn b).defOp = some e → f.soleReader d = some x →
    f.soleReader e = some x → FlipTree d l → FlipTree e l' → FlipTree x (l ++ l' ++ [x])

/-- The ops that are flipped below the branch `cb`: they are different, and each one's output is read
by one op, which is an AND or OR among them or the branch. -/
structure Flippable (cb : OpId) (flips : List OpId) : Prop where
  nodup : flips.Nodup
  kind : ∀ x ∈ flips, (f.op x).opcode.flipsAlone = true ∨ (f.op x).opcode.isAndOr = true
  reader : ∀ x ∈ flips, ∃ r, f.soleReader x = some r ∧
    (r = cb ∨ r ∈ flips ∧ (f.op r).opcode.isAndOr = true)

variable {f : Funcdata} {x y d r cb op : OpId} {a b v w : VarnodeId} {l flips : List OpId}

theorem soleReader_spec (h : f.soleReader x = some r) :
    ∃ w, (f.op x).output = some w ∧ (f.vn w).descend = [r] := by
  obtain ⟨w, hw, hlone⟩ := Option.bind_eq_some_iff.mp h
  exact ⟨w, hw, loneDescend_eq_some hlone⟩

theorem soleReader_of (ho : (f.op x).output = some w) (hd : (f.vn w).descend = [r]) :
    f.soleReader x = some r := by
  unfold soleReader loneDescend
  rw [ho, Option.bind_some, hd]

theorem readerIter_add {n m : ℕ} (h : f.readerIter n x = some y) (h' : f.readerIter m y = some r) :
    f.readerIter (n + m) x = some r := by
  induction n generalizing x with
  | zero =>
    cases h
    rwa [Nat.zero_add]
  | succ n ih =>
    obtain ⟨z, hz, hn⟩ := Option.bind_eq_some_iff.mp h
    rw [Nat.succ_add]
    exact Option.bind_eq_some_iff.mpr ⟨z, hz, ih hn⟩

/-- The number of steps to an op that nothing reads. -/
theorem readerIter_inj {n m : ℕ} (hcb : f.soleReader cb = none) (h : f.readerIter n x = some cb)
    (h' : f.readerIter m x = some cb) : n = m := by
  have hstuck {k : ℕ} : f.readerIter (k + 1) cb = none := by
    unfold readerIter
    rw [hcb]
    rfl
  induction n generalizing x m with
  | zero =>
    cases h
    cases m with
    | zero => rfl
    | succ m => exact absurd (hstuck.symm.trans h') nofun
  | succ n ih =>
    cases m with
    | zero =>
      cases h'
      exact absurd (hstuck.symm.trans h) nofun
    | succ m =>
      obtain ⟨y, hy, hn⟩ := Option.bind_eq_some_iff.mp h
      obtain ⟨y', hy', hm⟩ := Option.bind_eq_some_iff.mp h'
      cases hy.symm.trans hy'
      rw [ih hn hm]

namespace FlipTree

theorem mem_root (h : FlipTree f x l) : x ∈ l := by
  cases h with
  | compare => exact List.mem_singleton_self x
  | connect => simp

/-- From every op the readers lead to the root. -/
theorem steps (h : FlipTree f x l) (hy : y ∈ l) : ∃ n, f.readerIter n y = some x := by
  have hstep {z d x : OpId} {n : ℕ} (hd : f.soleReader d = some x) (hn : f.readerIter n z = some d) :
      f.readerIter (n + 1) z = some x := by
    refine readerIter_add hn ?_
    unfold readerIter
    rw [hd]
    rfl
  induction h with
  | compare _ => exact ⟨0, congrArg some (List.mem_singleton.mp hy)⟩
  | connect _ _ _ _ _ hd he _ _ ih ih' =>
    rcases List.mem_append.mp hy with hy | hy
    · rcases List.mem_append.mp hy with hy | hy
      · obtain ⟨n, hn⟩ := ih hy
        exact ⟨n + 1, hstep hd hn⟩
      · obtain ⟨n, hn⟩ := ih' hy
        exact ⟨n + 1, hstep he hn⟩
    · exact ⟨0, congrArg some (List.mem_singleton.mp hy)⟩

theorem kind (h : FlipTree f x l) (hy : y ∈ l) :
    (f.op y).opcode.flipsAlone = true ∨ (f.op y).opcode.isAndOr = true := by
  induction h with
  | compare hcode => exact .inl (List.mem_singleton.mp hy ▸ hcode)
  | connect hcode _ _ _ _ _ _ _ _ ih ih' =>
    rcases List.mem_append.mp hy with hy | hy
    · rcases List.mem_append.mp hy with hy | hy
      · exact ih hy
      · exact ih' hy
    · exact .inr (List.mem_singleton.mp hy ▸ hcode)

/-- Below the root, every output is read by an AND or OR of the tree. -/
theorem reader (h : FlipTree f x l) (hy : y ∈ l) (hne : y ≠ x) :
    ∃ r, f.soleReader y = some r ∧ r ∈ l ∧ (f.op r).opcode.isAndOr = true := by
  induction h with
  | compare _ => exact absurd (List.mem_singleton.mp hy) hne
  | @connect x d e a b l l' hcode _ _ _ _ hd he htd hte ih ih' =>
    rcases List.mem_append.mp hy with hy | hy
    · rcases List.mem_append.mp hy with hy | hy
      · by_cases hyd : y = d
        · exact ⟨x, hyd ▸ hd, by simp, hcode⟩
        · obtain ⟨r, hr, hmem, hrcode⟩ := ih hy hyd
          exact ⟨r, hr, by simp [hmem], hrcode⟩
      · by_cases hye : y = e
        · exact ⟨x, hye ▸ he, by simp, hcode⟩
        · obtain ⟨r, hr, hmem, hrcode⟩ := ih' hy hye
          exact ⟨r, hr, by simp [hmem], hrcode⟩
    · exact absurd (List.mem_singleton.mp hy) hne

/-- The two operands of an AND or OR of the tree are computed in the tree. -/
theorem inputs (h : FlipTree f x l) (hy : y ∈ l) (hcode : (f.op y).opcode.isAndOr = true) :
    ∃ a b d e, (f.op y).input 0 = some a ∧ (f.op y).input 1 = some b ∧
      (f.vn a).defOp = some d ∧ (f.vn b).defOp = some e ∧ d ∈ l ∧ e ∈ l := by
  induction h with
  | compare hflips =>
    rw [List.mem_singleton.mp hy] at hcode
    exact absurd hcode (OpCode.not_isAndOr hflips)
  | @connect x d e a b l l' _ ha hb hda hdb _ _ htd hte ih ih' =>
    rcases List.mem_append.mp hy with hy | hy
    · rcases List.mem_append.mp hy with hy | hy
      · obtain ⟨a, b, d, e, ha, hb, hd, he, hdl, hel⟩ := ih hy
        exact ⟨a, b, d, e, ha, hb, hd, he, by simp [hdl], by simp [hel]⟩
      · obtain ⟨a, b, d, e, ha, hb, hd, he, hdl, hel⟩ := ih' hy
        exact ⟨a, b, d, e, ha, hb, hd, he, by simp [hdl], by simp [hel]⟩
    · rw [List.mem_singleton.mp hy]
      exact ⟨a, b, d, e, ha, hb, hda, hdb, by simp [htd.mem_root], by simp [hte.mem_root]⟩

/-- What feeds the root is computed for every op of the tree. -/
theorem boolValues {fl : FloatCompare} {env : VarnodeId → ℕ} (hlinked : f.Linked)
    (h : FlipTree f x l) (ho : (f.op x).output = some v) (hv : f.BoolValues fl env v)
    (hy : y ∈ l) (hw : (f.op y).output = some w) : f.BoolValues fl env w := by
  induction h generalizing v with
  | compare _ =>
    cases List.mem_singleton.mp hy
    cases ho.symm.trans hw
    exact hv
  | @connect x d e a b l l' hcode ha hb hda hdb _ _ _ _ ih ih' =>
    have hsem : (f.op x).opcode.hasSemantics = true := by
      cases hc : (f.op x).opcode
      all_goals
        rw [hc] at hcode
        first
          | rfl
          | cases hcode
    have hd := (hlinked.defs v x).mpr ho
    rcases List.mem_append.mp hy with hy | hy
    · rcases List.mem_append.mp hy with hy | hy
      · exact ih ((hlinked.defs a d).mp hda) (hv.input hd hsem (List.mem_of_getElem? ha)) hy
      · exact ih' ((hlinked.defs b e).mp hdb) (hv.input hd hsem (List.mem_of_getElem? hb)) hy
    · cases List.mem_singleton.mp hy
      cases ho.symm.trans hw
      exact hv

/-- An AND or OR reads two different values, each once. -/
theorem inputs_ne (hlinked : f.Linked) (ha : (f.op x).input 0 = some a)
    (hb : (f.op x).input 1 = some b) (hd : (f.vn a).defOp = some d)
    (hread : f.soleReader d = some x) : a ≠ b := by
  rintro rfl
  obtain ⟨w, hw, hdesc⟩ := soleReader_spec hread
  cases ((hlinked.defs a d).mp hd).symm.trans hw
  have hone : (f.op x).inrefs.count a = 1 := by
    rw [← hlinked.count a x, hdesc]
    exact List.count_singleton_self
  have htwo : List.Duplicate a (f.op x).inrefs := by
    rw [List.duplicate_iff_exists_distinct_get]
    obtain ⟨h0, e0⟩ := List.getElem?_eq_some_iff.mp ha
    obtain ⟨h1, e1⟩ := List.getElem?_eq_some_iff.mp hb
    exact ⟨⟨0, h0⟩, ⟨1, h1⟩, Nat.zero_lt_one, e0.symm, e1.symm⟩
  rw [List.duplicate_iff_two_le_count, hone] at htwo
  omega

theorem nodup (hlinked : f.Linked) (hcb : f.soleReader cb = none) (h : FlipTree f x l) {n : ℕ}
    (hroot : f.readerIter n x = some cb) : l.Nodup := by
  induction h generalizing n with
  | compare _ => exact List.nodup_singleton _
  | @connect x d e a b l l' _ ha hb hda hdb hd he htd hte ih ih' =>
    have hstep {z : OpId} (hz : f.soleReader z = some x) : f.readerIter (n + 1) z = some cb :=
      Option.bind_eq_some_iff.mpr ⟨x, hz, hroot⟩
    have hnot {z : OpId} {m : List OpId} (hz : f.soleReader z = some x) (ht : FlipTree f z m) :
        x ∉ m := by
      intro hx
      obtain ⟨k, hk⟩ := ht.steps hx
      have heq := readerIter_inj hcb (readerIter_add hk (hstep hz)) hroot
      omega
    have hdisj : l.Disjoint l' := by
      intro y hy hy'
      obtain ⟨k, hk⟩ := htd.steps hy
      obtain ⟨k', hk'⟩ := hte.steps hy'
      have heq := readerIter_inj hcb (readerIter_add hk (hstep hd)) (readerIter_add hk' (hstep he))
      obtain rfl : k = k' := by omega
      cases hk.symm.trans hk'
      exact inputs_ne hlinked ha hb hda hd
        (Option.some.inj (((hlinked.defs a d).mp hda).symm.trans ((hlinked.defs b d).mp hdb)))
    rw [List.nodup_append', List.nodup_append']
    refine ⟨⟨ih (hstep hd), ih' (hstep he), hdisj⟩, List.nodup_singleton x, ?_⟩
    intro y hy hyx
    cases List.mem_singleton.mp hyx
    rcases List.mem_append.mp hy with hy | hy
    · exact hnot hd htd hy
    · exact hnot he hte hy

/-- The tree of a condition that `cb` reads. -/
theorem flippable (hlinked : f.Linked) (hcb : (f.op cb).output = none) (h : FlipTree f x l)
    (hread : f.soleReader x = some cb) : f.Flippable cb l := by
  have hnone : f.soleReader cb = none := by
    unfold soleReader
    rw [hcb]
    rfl
  have hroot : f.readerIter 1 x = some cb := Option.bind_eq_some_iff.mpr ⟨cb, hread, rfl⟩
  refine ⟨h.nodup hlinked hnone hroot, fun y hy => h.kind hy, fun y hy => ?_⟩
  by_cases hyx : y = x
  · exact ⟨cb, hyx ▸ hread, .inl rfl⟩
  · obtain ⟨r, hr, hmem, hcode⟩ := h.reader hy hyx
    exact ⟨r, hr, .inr ⟨hmem, hcode⟩⟩

end FlipTree

/-! The test builds the tree. -/

/-- An input that is tested: its definition, with `op` as the only reader. -/
theorem flipTestInput_cases {test : OpId → List OpId → Option (ℕ × List OpId)} {slot : ℕ}
    {p : ℕ × List OpId} (h : f.flipTestInput test op slot flips = some p) (hp : p.1 ≠ 2) :
    ∃ v d, (f.op op).input slot = some v ∧ (f.vn v).descend = [op] ∧ (f.vn v).defOp = some d ∧
      test d flips = some p := by
  unfold flipTestInput at h
  cases hin : (f.op op).input slot with
  | none =>
    rw [hin] at h
    cases h
  | some v =>
    rw [hin] at h
    dsimp only at h
    split_ifs at h with hlone
    · cases h
      exact absurd rfl hp
    · rw [not_or, not_not] at hlone
      cases hdef : (f.vn v).defOp with
      | none =>
        rw [hdef] at h
        cases h
      | some d =>
        rw [hdef] at h
        exact ⟨v, d, rfl, loneDescend_eq_some hlone.1, hdef, h⟩

theorem flipTree_of_testRec (hlinked : f.Linked)
    (hbr : ∀ o, (f.op o).opcode = .cbranch → (f.op o).output = none) {fuel : ℕ} {p : ℕ × List OpId}
    (hout : (f.op x).output ≠ none) (h : f.opFlipInPlaceTestRec fuel x flips = some p)
    (hp : p.1 ≠ 2) : ∃ l, p.2 = flips ++ l ∧ FlipTree f x l := by
  induction fuel generalizing x flips p with
  | zero => cases h
  | succ n ih =>
    have hone (hcode : (f.op x).opcode.flipsAlone = true) {k : ℕ} (hk : (k, flips ++ [x]) = p) :
        ∃ l, p.2 = flips ++ l ∧ FlipTree f x l := ⟨[x], by rw [← hk], .compare hcode⟩
    have hdef {v : VarnodeId} {d : OpId} (hd : (f.vn v).defOp = some d) :
        (f.op d).output = some v := (hlinked.defs v d).mp hd
    unfold opFlipInPlaceTestRec at h
    dsimp only at h
    split at h
    case h_1 hcode => exact absurd (hbr x hcode) hout
    case h_11 hcode | h_12 hcode =>
      obtain ⟨p1, h1, h⟩ := Option.bind_eq_some_iff.mp h
      split_ifs at h with hp1
      · cases h
        exact absurd rfl hp
      · obtain ⟨p2, h2, h⟩ := Option.bind_eq_some_iff.mp h
        split_ifs at h with hp2
        · cases h
          exact absurd rfl hp
        · cases h
          obtain ⟨a, d, ha, hra, hda, hta⟩ := flipTestInput_cases h1 hp1
          obtain ⟨b, e, hb, hrb, hdb, htb⟩ := flipTestInput_cases h2 hp2
          obtain ⟨l, hl, htl⟩ := ih (by rw [hdef hda]; exact nofun) hta hp1
          obtain ⟨l', hl', htl'⟩ := ih (by rw [hdef hdb]; exact nofun) htb hp2
          refine ⟨l ++ l' ++ [x], by simp [hl', hl], ?_⟩
          exact .connect (by rw [hcode]; rfl) ha hb hda hdb (soleReader_of (hdef hda) hra)
            (soleReader_of (hdef hdb) hrb) htl htl'
    case h_13 =>
      cases h
      exact absurd rfl hp
    case h_7 hcode | h_8 hcode | h_9 hcode | h_10 hcode =>
      obtain ⟨w, -, hr⟩ := Option.map_eq_some_iff.mp h
      exact hone (by rw [hcode]; rfl) hr
    all_goals
      rename_i hcode
      exact hone (by rw [hcode]; rfl) (Option.some.inj h)

/-- What a flip of the branch `cb` that is not rejected has found. -/
theorem flipTree_of_test (hlinked : f.Linked)
    (hbr : ∀ o, (f.op o).opcode = .cbranch → (f.op o).output = none)
    (hcode : (f.op cb).opcode = .cbranch) {fuel k : ℕ}
    (h : f.opFlipInPlaceTest fuel cb = some (k, flips)) (hk : k ≠ 2) :
    ∃ c d, (f.op cb).input 1 = some c ∧ (f.vn c).defOp = some d ∧ f.soleReader d = some cb ∧
      FlipTree f d flips := by
  unfold opFlipInPlaceTest at h
  cases fuel with
  | zero => cases h
  | succ n =>
    unfold opFlipInPlaceTestRec at h
    rw [hcode] at h
    dsimp only at h
    split_ifs at h with hin
    · cases h
      exact absurd rfl hk
    · obtain ⟨c, d, hc, hread, hd, htest⟩ := flipTestInput_cases h hk
      have ho := (hlinked.defs c d).mp hd
      obtain ⟨l, hl, ht⟩ := flipTree_of_testRec hlinked hbr (by rw [ho]; exact Option.some_ne_none c) htest hk
      have hflips : flips = l := hl.trans (List.nil_append l)
      exact ⟨c, d, hc, hd, soleReader_of ho hread, hflips ▸ ht⟩

end Funcdata
end Mosura
