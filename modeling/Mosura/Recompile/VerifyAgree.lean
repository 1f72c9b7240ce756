import Mosura.Recompile.Verify

/-! When the byte verdict and the instruction verdict of one function agree. -/

namespace Mosura
namespace Recompile

open Emu (Instruction Decoder)
open Emu.Decoder (Sweep flat Local disassemble)

theorem trimReversed_suffix (insns : List NormInsn) : trimReversed insns <:+ insns := by
  induction insns with
  | nil => exact List.suffix_refl _
  | cons last rest ih =>
    cases rest with
    | nil => exact List.suffix_refl _
    | cons before rest =>
      unfold trimReversed
      split_ifs
      · exact ih.trans (List.suffix_cons last _)
      · exact List.suffix_refl _

theorem trimPadding_prefix (insns : List NormInsn) : trimPadding insns <+: insns := by
  unfold trimPadding
  rw [← List.reverse_suffix, List.reverse_reverse]
  exact trimReversed_suffix _

/-- `stream` is `insns`, normalized with the masks of the whole disassembly. -/
def Normalizes (masks : List Bytes) (stream : List NormInsn) (insns : List Instruction) : Prop :=
  stream = insns.zipIdx.map fun (insn, i) => normalizeOneWithMask insn noReloc masks[i]?

/-- What is left of a normalized disassembly was decoded one after the other. -/
theorem exists_sweep (lang : Tables) (bytes : Bytes) (base : U64) :
    ∃ insns, Sweep lang.decode bytes base insns ∧
      Normalizes (lang.masks bytes base) (trimPadding (normalize lang bytes base noReloc)) insns := by
  have hpre := trimPadding_prefix (normalize lang bytes base noReloc)
  generalize hn : (trimPadding (normalize lang bytes base noReloc)).length = n
  refine ⟨(lang.decode.disassemble bytes base).take n,
    Emu.Decoder.sweep_of_prefix (List.take_prefix _ _), ?_⟩
  rw [List.prefix_iff_eq_take.mp hpre, hn]
  unfold Normalizes normalize
  rw [← List.map_take]
  congr 1
  apply List.ext_getElem?
  intro k
  simp only [List.getElem?_take, List.getElem?_zipIdx]
  split_ifs <;> rfl

namespace Normalizes

variable {masks : List Bytes} {stream : List NormInsn} {insns : List Instruction}

theorem length (h : Normalizes masks stream insns) : stream.length = insns.length := by
  rw [h, List.length_map, List.length_zipIdx]

theorem getElem? (h : Normalizes masks stream insns) (k : ℕ) :
    stream[k]? = insns[k]?.map fun insn => normalizeOneWithMask insn noReloc masks[k]? := by
  rw [h, List.getElem?_map, List.getElem?_zipIdx, Option.map_map, Nat.zero_add]
  rfl

theorem streamBytes (h : Normalizes masks stream insns) : streamBytes stream = flat insns := by
  rw [h, Recompile.streamBytes, List.flatMap_map]
  have hfst := List.zipIdx_map_fst 0 insns
  conv_rhs => rw [← hfst]
  rw [flat, List.flatMap_map]
  rfl

theorem getLast? (h : Normalizes masks stream insns) :
    stream.getLast?.map NormInsn.end_ = insns.getLast?.map Instruction.next := by
  rw [List.getLast?_eq_getElem?, List.getLast?_eq_getElem?, h.getElem?, h.length, Option.map_map]
  rfl

theorem eq_nil_iff (h : Normalizes masks stream insns) : stream = [] ↔ insns = [] := by
  rw [← List.length_eq_zero_iff, ← List.length_eq_zero_iff, h.length]

end Normalizes

theorem indexAt_self_of_addr {orig cand : List NormInsn} {o c : NormInsn}
    (haddr : orig.map NormInsn.addr = cand.map NormInsn.addr) (ot : U64) :
    Lands orig cand o c ot ot := by
  unfold Lands
  rw [indexAt_eq_of_addr haddr]
  split_ifs
  · rfl
  · split
    · rename_i hi hj
      exact Option.some.inj (hi.symm.trans hj)
    · rfl

/-- One disassembly normalized under two lists of masks is one stream. -/
theorem Normalizes.sameStream {masks masks' : List Bytes} {orig cand : List NormInsn}
    {insns : List Instruction} (h : Normalizes masks orig insns)
    (h' : Normalizes masks' cand insns) : SameStream (Lands orig cand) orig cand := by
  have haddr : orig.map NormInsn.addr = cand.map NormInsn.addr := by
    rw [h, h', List.map_map, List.map_map]
    rfl
  have hinsn : ∀ (k : ℕ) (o c : NormInsn), orig[k]? = some o → cand[k]? = some c →
      ∃ insn, o = normalizeOneWithMask insn noReloc masks[k]? ∧
        c = normalizeOneWithMask insn noReloc masks'[k]? := by
    intro k o c ho hc
    rw [h.getElem?] at ho
    rw [h'.getElem?] at hc
    obtain ⟨insn, hk, rfl⟩ := Option.map_eq_some_iff.mp ho
    obtain ⟨insn', hk', rfl⟩ := Option.map_eq_some_iff.mp hc
    obtain rfl := Option.some.inj (hk.symm.trans hk')
    exact ⟨insn, rfl, rfl⟩
  refine ⟨h.length.trans h'.length.symm, fun k o c ho hc => ?_, fun k o c ho hc ot hot => ?_⟩
  · obtain ⟨insn, rfl, rfl⟩ := hinsn k o c ho hc
    exact ⟨rfl, rfl⟩
  · obtain ⟨insn, rfl, rfl⟩ := hinsn k o c ho hc
    exact ⟨ot, hot, indexAt_self_of_addr haddr ot⟩

theorem SameStream.streamBytes {lands : NormInsn → NormInsn → U64 → U64 → Prop}
    {orig cand : List NormInsn} (h : SameStream lands orig cand) :
    streamBytes orig = streamBytes cand := by
  have hbytes : orig.map NormInsn.bytes = cand.map NormInsn.bytes := by
    apply List.ext_getElem?
    intro k
    rw [List.getElem?_map, List.getElem?_map]
    by_cases hk : k < orig.length
    · obtain ⟨o, c, ho, hc⟩ := exists_pair_at h.length hk
      rw [ho, hc]
      exact congrArg some (h.insn k o c ho hc).2
    · rw [List.getElem?_eq_none (not_lt.mp hk), List.getElem?_eq_none (h.length ▸ not_lt.mp hk)]
  rw [Recompile.streamBytes, Recompile.streamBytes, List.flatMap_def, List.flatMap_def, hbytes]

/-- The trimmed byte strings differ only at bytes covered by fixups. -/
def OnlyAtFixups (fixups : List CandFixup) (obytes cbytes : Bytes) : Prop :=
  ∀ k, obytes[k]? ≠ cbytes[k]? → atReloc fixups k = true

/-- The positions below `len` at which two byte strings differ. -/
def differing (obytes cbytes : Bytes) (len : ℕ) : List ℕ :=
  (List.range len).filter fun k => obytes[k]? ≠ cbytes[k]?

theorem mem_differing_iff {obytes cbytes : Bytes} {len k : ℕ} :
    k ∈ differing obytes cbytes len ↔ k < len ∧ obytes[k]? ≠ cbytes[k]? := by
  unfold differing
  rw [List.mem_filter, List.mem_range, decide_eq_true_iff]

/-- Two byte strings of length `len` differ at a position below it. -/
theorem mem_differing_of_length {obytes cbytes : Bytes} (hlen : obytes.length = cbytes.length)
    {k : ℕ} : k ∈ differing obytes cbytes obytes.length ↔ obytes[k]? ≠ cbytes[k]? := by
  rw [mem_differing_iff]
  refine ⟨And.right, fun h => ⟨?_, h⟩⟩
  by_contra hk
  exact h (by rw [List.getElem?_eq_none (not_lt.mp hk),
    List.getElem?_eq_none (hlen ▸ not_lt.mp hk)])

theorem differing_eq_nil_iff {obytes cbytes : Bytes} (hlen : obytes.length = cbytes.length) :
    differing obytes cbytes obytes.length = [] ↔ obytes = cbytes := by
  rw [List.eq_nil_iff_forall_not_mem]
  constructor
  · intro h
    apply List.ext_getElem?
    intro k
    by_contra hk
    exact h k ((mem_differing_of_length hlen).mpr hk)
  · rintro rfl k hk
    exact (mem_differing_iff.mp hk).2 rfl

section ByteVerdict

variable {decode : Decoder} {masks masks' : List Bytes} {original candidate : List NormInsn}
  {insns insns' : List Instruction} {originalBytes : Bytes} {relinked : Candidate} {va : U64}

/-- Where both streams have instructions, the byte verdict compares the streams' bytes, if the
candidate's last instruction is not cut. -/
theorem byteVerdict_eq (hs : Sweep decode originalBytes va insns)
    (hn : Normalizes masks original insns) (hs' : Sweep decode relinked.relinkedBytes va insns')
    (hn' : Normalizes masks' candidate insns') (hmem : (streamBytes original).length < 2 ^ 64)
    (hmem' : (streamBytes candidate).length < 2 ^ 64) (hne : original ≠ [])
    (hne' : candidate ≠ []) :
    byteVerdict original candidate relinked va =
      if (streamBytes original).length ≠ (streamBytes candidate).length ∨
        relinked.relinkedBytes.length < (streamBytes candidate).length then .different
      else if (differing (streamBytes original) (streamBytes candidate)
          (streamBytes original).length).any fun k => !atReloc relinked.fixups k then .different
      else if (differing (streamBytes original) (streamBytes candidate)
          (streamBytes original).length).isEmpty then .identical
      else .identicalOutsideRelocations := by
  have hend : ∀ {masks : List Bytes} {stream : List NormInsn} {insns : List Instruction}
      {bytes : Bytes}, Sweep decode bytes va insns → Normalizes masks stream insns → stream ≠ [] →
      ∃ last, stream.getLast? = some last ∧
        last.end_ = va + BitVec.ofNat 64 (streamBytes stream).length := by
    intro masks stream insns bytes hs hn hne
    have hlast := hn.getLast?
    rw [List.getLast?_eq_getLast_of_ne_nil hne] at hlast ⊢
    obtain ⟨insn, hinsn, heq⟩ := Option.map_eq_some_iff.mp hlast.symm
    exact ⟨_, rfl, by rw [← heq, hs.end_eq hinsn, hn.streamBytes]⟩
  obtain ⟨o, ho, hoend⟩ := hend hs hn hne
  obtain ⟨c, hc, hcend⟩ := hend hs' hn' hne'
  have hsub : (o.end_ - va).toNat = (streamBytes original).length := by
    rw [hoend, BitVec.add_comm, BitVec.add_sub_cancel, BitVec.toNat_ofNat, Nat.mod_eq_of_lt hmem]
  have hsub' : (c.end_ - va).toNat = (streamBytes candidate).length := by
    rw [hcend, BitVec.add_comm, BitVec.add_sub_cancel, BitVec.toNat_ofNat, Nat.mod_eq_of_lt hmem']
  unfold byteVerdict
  simp only [ho, hc]
  by_cases hlen : (streamBytes original).length = (streamBytes candidate).length
  · have hends : o.end_ = c.end_ := by rw [hoend, hcend, hlen]
    rw [if_neg (not_not.mpr hends), hsub]
    by_cases hcut : relinked.relinkedBytes.length < (streamBytes candidate).length
    · rw [if_pos (Or.inr (hlen ▸ hcut)), if_pos (Or.inr hcut)]
    · have hcode : ¬ ((streamBytes original).length < (streamBytes original).length ∨
          relinked.relinkedBytes.length < (streamBytes original).length) := by omega
      have hspec : ¬ ((streamBytes original).length ≠ (streamBytes candidate).length ∨
          relinked.relinkedBytes.length < (streamBytes candidate).length) := by omega
      rw [if_neg hcode, if_neg hspec]
      -- the candidate's stream covers its bytes as they are
      have htake : streamBytes candidate =
          relinked.relinkedBytes.take (streamBytes candidate).length := by
        rw [hn'.streamBytes]
        exact hs'.flat_eq_take (hn'.streamBytes ▸ not_lt.mp hcut)
      have hsame : (List.range (streamBytes original).length).filter (fun k =>
          (streamBytes original)[k]? ≠ relinked.relinkedBytes[k]?) =
          differing (streamBytes original) (streamBytes candidate)
            (streamBytes original).length := by
        unfold differing
        refine List.filter_congr fun k hk => ?_
        rw [htake, List.getElem?_take, if_pos (hlen ▸ List.mem_range.mp hk)]
      rw [hsame]
  · have hends : o.end_ ≠ c.end_ := by
      intro heq
      rw [heq, hsub'] at hsub
      exact hlen hsub.symm
    rw [if_pos hends, if_pos (Or.inl hlen)]

theorem byteVerdict_nil (h : original = [] ∨ candidate = []) :
    byteVerdict original candidate relinked va = .different := by
  unfold byteVerdict
  obtain rfl | rfl := h
  · rfl
  · cases original.getLast? with
    | none => rfl
    | some o => rfl

/-- The byte verdict in terms of the trimmed byte strings. -/
theorem byteVerdict_iff (hs : Sweep decode originalBytes va insns)
    (hn : Normalizes masks original insns) (hs' : Sweep decode relinked.relinkedBytes va insns')
    (hn' : Normalizes masks' candidate insns') (hmem : (streamBytes original).length < 2 ^ 64)
    (hmem' : (streamBytes candidate).length < 2 ^ 64) :
    (byteVerdict original candidate relinked va = .identical ↔
      original ≠ [] ∧ (streamBytes candidate).length ≤ relinked.relinkedBytes.length ∧
        streamBytes original = streamBytes candidate) ∧
    (byteVerdict original candidate relinked va = .identicalOutsideRelocations ↔
      (streamBytes candidate).length ≤ relinked.relinkedBytes.length ∧
        (streamBytes original).length = (streamBytes candidate).length ∧
        streamBytes original ≠ streamBytes candidate ∧
        OnlyAtFixups relinked.fixups (streamBytes original) (streamBytes candidate)) := by
  have hbytes := hn.streamBytes
  have hbytes' := hn'.streamBytes
  -- a stream without bytes has no instructions
  have hnil : ∀ {masks : List Bytes} {stream : List NormInsn} {insns : List Instruction}
      {bytes : Bytes}, Sweep decode bytes va insns → Normalizes masks stream insns →
      (stream = [] ↔ streamBytes stream = []) := by
    intro masks stream insns bytes hs hn
    rw [hn.eq_nil_iff, hn.streamBytes]
    refine ⟨fun h => by rw [h]; rfl, fun h => ?_⟩
    by_contra hne
    exact hs.flat_ne_nil hne h
  by_cases hne : original = [] ∨ candidate = []
  · rw [byteVerdict_nil hne]
    refine ⟨⟨fun h => (nomatch h), ?_⟩, ⟨fun h => (nomatch h), ?_⟩⟩
    · rintro ⟨hnonempty, -, heq⟩
      obtain rfl | rfl := hne
      · exact absurd rfl hnonempty
      · exact absurd ((hnil hs hn).mpr (heq.trans rfl)) hnonempty
    · rintro ⟨-, hlen, hdiff, -⟩
      obtain rfl | rfl := hne
      · exact absurd (List.length_eq_zero_iff.mp hlen.symm).symm hdiff
      · exact absurd (List.length_eq_zero_iff.mp hlen) hdiff
  · obtain ⟨hne, hne'⟩ := not_or.mp hne
    rw [byteVerdict_eq hs hn hs' hn' hmem hmem' hne hne']
    by_cases hshape : (streamBytes original).length ≠ (streamBytes candidate).length ∨
        relinked.relinkedBytes.length < (streamBytes candidate).length
    · rw [if_pos hshape]
      refine ⟨⟨fun h => (nomatch h), ?_⟩, ⟨fun h => (nomatch h), ?_⟩⟩
      · rintro ⟨-, hcut, heq⟩
        rw [heq] at hshape
        omega
      · rintro ⟨hcut, hlen, -⟩
        omega
    · obtain ⟨hlen, hcut⟩ := not_or.mp hshape
      have hlen : (streamBytes original).length = (streamBytes candidate).length := not_not.mp hlen
      have hcut : (streamBytes candidate).length ≤ relinked.relinkedBytes.length := not_lt.mp hcut
      have honly : ((differing (streamBytes original) (streamBytes candidate)
          (streamBytes original).length).any fun k => !atReloc relinked.fixups k) = false ↔
          OnlyAtFixups relinked.fixups (streamBytes original) (streamBytes candidate) := by
        rw [List.any_eq_false]
        simp only [mem_differing_of_length hlen, Bool.not_eq_true', Bool.not_eq_false, OnlyAtFixups]
      rw [if_neg hshape]
      by_cases hat : ((differing (streamBytes original) (streamBytes candidate)
          (streamBytes original).length).any fun k => !atReloc relinked.fixups k) = true
      · rw [if_pos hat]
        have hnot : ¬ OnlyAtFixups relinked.fixups (streamBytes original)
            (streamBytes candidate) := fun h => by rw [honly.mpr h] at hat; cases hat
        refine ⟨⟨fun h => (nomatch h), ?_⟩, ⟨fun h => (nomatch h), ?_⟩⟩
        · rintro ⟨-, -, heq⟩
          exact absurd (fun k hk => absurd (congrArg (·[k]?) heq) hk) hnot
        · rintro ⟨-, -, -, h⟩
          exact absurd h hnot
      · rw [if_neg hat]
        have honly := honly.mp (Bool.not_eq_true _ |>.mp hat)
        by_cases heq : streamBytes original = streamBytes candidate
        · rw [if_pos (List.isEmpty_iff.mpr ((differing_eq_nil_iff hlen).mpr heq))]
          exact ⟨⟨fun _ => ⟨hne, hcut, heq⟩, fun _ => rfl⟩,
            ⟨fun h => (nomatch h), fun h => absurd heq h.2.2.1⟩⟩
        · rw [if_neg fun h => heq ((differing_eq_nil_iff hlen).mp (List.isEmpty_iff.mp h))]
          exact ⟨⟨fun h => (nomatch h), fun h => absurd h.2.2 heq⟩,
            ⟨fun _ => ⟨hcut, hlen, heq, honly⟩, fun _ => rfl⟩⟩

end ByteVerdict

/-- The two verdicts agree: identical bytes are an exact diff, and bytes identical outside
relocations are trimmed strings of one length that differ, but only at bytes covered by fixups. -/
structure Agrees (r : Checked) : Prop where
  identical : r.bytes = .identical ↔ r.diff.verdict = .exact
  outside : r.bytes = .identicalOutsideRelocations ↔
    (streamBytes r.original).length = (streamBytes r.candidate).length ∧
      streamBytes r.original ≠ streamBytes r.candidate ∧
      OnlyAtFixups r.relinked.fixups (streamBytes r.original) (streamBytes r.candidate)

/-- For a language that decodes locally, an exact diff is one of equal trimmed byte strings. -/
theorem exact_iff_streamBytes {decode : Decoder} (hlocal : Local decode)
    {masks masks' : List Bytes} {original candidate : List NormInsn}
    {insns insns' : List Instruction} {bytes bytes' : Bytes} {va : U64}
    (hs : Sweep decode bytes va insns) (hn : Normalizes masks original insns)
    (hs' : Sweep decode bytes' va insns') (hn' : Normalizes masks' candidate insns') {d : FnDiff}
    (hd : compare original candidate = some d) :
    d.verdict = .exact ↔ streamBytes original = streamBytes candidate := by
  constructor
  · intro hexact
    exact (sameStream_of_exact hd hexact).streamBytes
  · intro heq
    rw [hn.streamBytes, hn'.streamBytes] at heq
    obtain rfl := hs.eq_of_flat hlocal hs' heq
    obtain ⟨d', hd', hexact⟩ := exact_of_sameStream (hn.sameStream hn')
    obtain rfl := Option.some.inj (hd.symm.trans hd')
    exact hexact

/-- A function is checked on the two streams of its original and relinked bytes. -/
theorem verifyWithImage_eq_some {lang : Tables} {originalBytes : Bytes} {subject : Subject}
    {load : String → Except String Candidate} {findNear : Option (Bytes → Option U64)}
    {r : Checked}
    (h : verifyWithImage (some lang) originalBytes subject load findNear = some (.ok r)) :
    ∃ (relinked : Candidate) (d : FnDiff),
      compare (trimPadding (normalize lang originalBytes subject.va noReloc))
        (trimPadding (normalize lang relinked.relinkedBytes subject.va noReloc)) = some d ∧
      r = ⟨d, byteVerdict (trimPadding (normalize lang originalBytes subject.va noReloc))
          (trimPadding (normalize lang relinked.relinkedBytes subject.va noReloc)) relinked
          subject.va,
        trimPadding (normalize lang originalBytes subject.va noReloc),
        trimPadding (normalize lang relinked.relinkedBytes subject.va noReloc), relinked⟩ := by
  unfold verifyWithImage at h
  cases hload : (load subject.name <|> load (subject.name ++ "_")) with
  | error e =>
    rw [hload] at h
    cases h
  | ok loaded =>
    rw [hload] at h
    obtain ⟨d, hd, h⟩ := Option.bind_eq_some_iff.mp h
    exact ⟨withTables loaded findNear, d, hd, (Except.ok.inj (Option.some.inj h)).symm⟩

/-- The verdicts of a checked function agree unless its trimmed byte strings agree outside the
fixups and are empty, or the candidate's last instruction is cut by the end of its bytes. -/
theorem verdicts_agree_iff {lang : Tables} (hlocal : Local lang.decode) {originalBytes : Bytes}
    {subject : Subject} {load : String → Except String Candidate}
    {findNear : Option (Bytes → Option U64)} {r : Checked}
    (h : verifyWithImage (some lang) originalBytes subject load findNear = some (.ok r))
    (hmem : (streamBytes r.original).length < 2 ^ 64)
    (hmem' : (streamBytes r.candidate).length < 2 ^ 64) :
    Agrees r ↔
      ((streamBytes r.original).length = (streamBytes r.candidate).length →
        OnlyAtFixups r.relinked.fixups (streamBytes r.original) (streamBytes r.candidate) →
        r.original ≠ [] ∧
          (streamBytes r.candidate).length ≤ r.relinked.relinkedBytes.length) := by
  obtain ⟨relinked, d, hd, rfl⟩ := verifyWithImage_eq_some h
  obtain ⟨insns, hs, hn⟩ := exists_sweep lang originalBytes subject.va
  obtain ⟨insns', hs', hn'⟩ := exists_sweep lang relinked.relinkedBytes subject.va
  obtain ⟨hidentical, houtside⟩ := byteVerdict_iff hs hn hs' hn' hmem hmem'
  have hexact := exact_iff_streamBytes hlocal hs hn hs' hn' hd
  constructor
  · rintro ⟨hagree, hagree'⟩ hlen honly
    by_cases heq : streamBytes (trimPadding (normalize lang originalBytes subject.va noReloc)) =
        streamBytes (trimPadding (normalize lang relinked.relinkedBytes subject.va noReloc))
    · obtain ⟨hne, hcut, -⟩ := hidentical.mp (hagree.mpr (hexact.mpr heq))
      exact ⟨hne, hcut⟩
    · refine ⟨?_, (houtside.mp (hagree'.mpr ⟨hlen, heq, honly⟩)).1⟩
      -- strings of one length that differ are not empty
      intro hnil
      change trimPadding (normalize lang originalBytes subject.va noReloc) = [] at hnil
      change (streamBytes (trimPadding (normalize lang originalBytes subject.va noReloc))).length =
        (streamBytes (trimPadding (normalize lang relinked.relinkedBytes subject.va
          noReloc))).length at hlen
      rw [hnil] at hlen heq
      exact heq (List.length_eq_zero_iff.mp hlen.symm).symm
  · intro hcond
    refine ⟨hidentical.trans (Iff.trans ⟨fun h => h.2.2, fun heq => ?_⟩ hexact.symm),
      houtside.trans ⟨fun h => h.2, fun h => ⟨?_, h⟩⟩⟩
    · obtain ⟨hne, hcut⟩ := hcond (congrArg List.length heq) fun k hk =>
        absurd (congrArg (·[k]?) heq) hk
      exact ⟨hne, hcut, heq⟩
    · exact (hcond h.1 h.2.2).2

theorem register_out_space (offset : U64) (size : ℕ) :
    ∀ v, some (⟨"register", offset, size⟩ : Emu.Varnode) = some v → v.space ≠ "const" :=
  Emu.Varnode.out_space (show "register" ≠ "const" by decide)

theorem no_out_space : ∀ v, (none : Option Emu.Varnode) = some v → v.space ≠ "const" :=
  fun v h => absurd h.symm (Option.some_ne_none v)

/-- x86-64 as far as `RET`; `PUSH ES` and `POP ES` are no instructions there. -/
def retTables : Tables where
  decode bytes _ :=
    if bytes.getD 0 0 = 0xc3 then
      some
        { length := 1
          mnemonic := "RET"
          body := ""
          ops := [
            ⟨.load, some ⟨"register", 0x288, 8⟩, [.space "ram", .var ⟨"register", 0x20, 8⟩],
              register_out_space _ _⟩,
            ⟨.intAdd, some ⟨"register", 0x20, 8⟩,
              [.var ⟨"register", 0x20, 8⟩, .var ⟨"const", 8, 8⟩],
              register_out_space _ _⟩,
            ⟨.return, none, [.var ⟨"register", 0x288, 8⟩], no_out_space⟩]
          length_pos := Nat.one_pos }
    else none
  masks bytes _ := bytes.map fun _ => [0xff]

theorem retTables_local : Local retTables.decode := by
  intro bytes₁ bytes₂ addr piece₁ piece₂ h₁ h₂ _ _ _
  unfold retTables at h₁ h₂
  dsimp only at h₁ h₂
  split_ifs at h₁ h₂
  exact (Option.some.inj h₁).symm.trans (Option.some.inj h₂)

/-- An object whose function has these bytes and no fixups. -/
def plainObject (bytes : Bytes) : String → Except String Candidate :=
  fun _ => .ok ⟨bytes, 0x1000, [], []⟩

theorem verdicts_agree_iff_ret :
    ∃ r, verifyWithImage (some retTables) [0xc3] ⟨"f", 0x1000⟩ (plainObject [0xc3]) none =
        some (.ok r) ∧
      (Agrees r ↔
        ((streamBytes r.original).length = (streamBytes r.candidate).length →
          OnlyAtFixups r.relinked.fixups (streamBytes r.original) (streamBytes r.candidate) →
          r.original ≠ [] ∧
            (streamBytes r.candidate).length ≤ r.relinked.relinkedBytes.length)) := by
  refine ⟨_, rfl, verdicts_agree_iff retTables_local (show verifyWithImage (some retTables) [0xc3]
    ⟨"f", 0x1000⟩ (plainObject [0xc3]) none = _ from rfl) ?_ ?_⟩
  · change 1 < 2 ^ 64
    decide
  · change 1 < 2 ^ 64
    decide

/-- Two different bytes that do not decode are an exact diff of different bytes. -/
theorem verdicts_disagree_undecodable :
    ∃ r, verifyWithImage (some retTables) [0x06] ⟨"f", 0x1000⟩ (plainObject [0x07]) none =
        some (.ok r) ∧ ¬ (r.bytes = .identical ↔ r.diff.verdict = .exact) := by
  refine ⟨_, rfl, fun h => ?_⟩
  exact ByteVerdict.noConfusion (h.mpr rfl)

end Recompile
end Mosura
