import Mosura.ReferenceManager

/-! The indices of the references after any calls. -/

namespace Mosura
namespace ReferenceManager
open Symbolic

variable {m m' : ReferenceManager} {refs : List Reference} {index : EndpointIndex}
  {endpoint : Reference → Address} {p q : Place} {i : BitVec 32} {r : Reference}

theorem place_address (a : Address) : (place a).address = a := by
  change (⟨a.space, BitVec.ofNat 64 a.offset.toNat⟩ : Address) = a
  rw [BitVec.ofNat_toNat, BitVec.setWidth_eq]

theorem place_inj {a b : Address} : place a = place b ↔ a = b := by
  refine ⟨fun h => ?_, congrArg place⟩
  rw [← place_address a, h, place_address]

/-! One index. -/

/-- The numbers of the references at a place. -/
def numbers (endpoint : Reference → Address) (refs : List Reference) (p : Place) :
    List (BitVec 32) :=
  (refs.zipIdx.filter fun x => place (endpoint x.1) = p).map fun x => BitVec.ofNat 32 x.2

/-- An index that says which references are at each place. -/
def Indexed (endpoint : Reference → Address) (refs : List Reference) (index : EndpointIndex) :
    Prop :=
  ∀ p, KeyMap.lookup p index =
    if numbers endpoint refs p = [] then none else some (numbers endpoint refs p)

theorem Indexed.getD (h : Indexed endpoint refs index) (p : Place) :
    (KeyMap.lookup p index).getD [] = numbers endpoint refs p := by
  rw [h p]
  split_ifs with hnil
  · exact hnil.symm
  · rfl

theorem numbers_concat (refs : List Reference) (r : Reference) (p : Place) :
    numbers endpoint (refs ++ [r]) p = numbers endpoint refs p ++
      if place (endpoint r) = p then [BitVec.ofNat 32 refs.length] else [] := by
  unfold numbers
  rw [List.zipIdx_append, List.filter_append, List.map_append, Nat.zero_add]
  refine congrArg _ ?_
  change (List.filter _ [(r, refs.length)]).map _ = _
  by_cases h : place (endpoint r) = p
  · rw [if_pos h, List.filter_singleton, decide_eq_true h]
    rfl
  · rw [if_neg h, List.filter_singleton, decide_eq_false h]
    rfl

/-- A reference added at the end is pushed with its number. -/
theorem Indexed.push (h : Indexed endpoint refs index) (r : Reference) :
    Indexed endpoint (refs ++ [r])
      (index.push (place (endpoint r)) (BitVec.ofNat 32 refs.length)) := by
  intro p
  unfold EndpointIndex.push
  rw [KeyMap.lookup_insert, h.getD, numbers_concat]
  by_cases hp : p = place (endpoint r)
  · rw [if_pos hp, if_pos hp.symm, if_neg (by simp), hp]
  · rw [if_neg hp, if_neg (Ne.symm hp), List.append_nil]
    exact h p

theorem indexed_nil : Indexed endpoint [] [] := fun _ => rfl

theorem indexed_rebuild (refs : List Reference) :
    Indexed endpoint refs (rebuildIndex endpoint refs) := by
  induction refs using List.reverseRecOn with
  | nil => exact indexed_nil
  | append_singleton refs r ih =>
    unfold rebuildIndex at ih ⊢
    rw [List.zipIdx_append, List.foldl_append, Nat.zero_add]
    exact ih.push r

theorem mapM_map_eq {α β γ : Type} {f : β → Option γ} {g : α → β} {h : α → γ} {l : List α}
    (hl : ∀ x ∈ l, f (g x) = some (h x)) : (l.map g).mapM f = some (l.map h) := by
  induction l with
  | nil => rfl
  | cons x l ih =>
    rw [List.map_cons, List.mapM_cons, hl x List.mem_cons_self,
      ih fun y hy => hl y (List.mem_cons_of_mem _ hy)]
    rfl

/-- While the numbers fit in 32 bits they stand for the references at the place, in order. -/
theorem mapM_numbers (hlen : refs.length ≤ 2 ^ 32) (p : Place) :
    (numbers endpoint refs p).mapM (fun i => refs[i.toNat]?) =
      some (refs.filter fun r => place (endpoint r) = p) := by
  unfold numbers
  rw [mapM_map_eq (h := Prod.fst)]
  · refine congrArg some ?_
    have hfst : (refs.zipIdx.map Prod.fst).filter (fun r => place (endpoint r) = p) =
        (refs.zipIdx.filter fun x => place (endpoint x.1) = p).map Prod.fst := List.filter_map
    rw [← hfst, List.zipIdx_map_fst]
  · rintro ⟨r, k⟩ hx
    have hk := List.mk_mem_zipIdx_iff_getElem?.mp (List.mem_filter.mp hx).1
    have hlt : k < refs.length := (List.getElem?_eq_some_iff.mp hk).1
    have hnum : (BitVec.ofNat 32 k).toNat = k := Nat.mod_eq_of_lt (by omega)
    rw [hnum, hk]

/-- `any` over the references of an index. -/
theorem anyRef_eq {test : Reference → Bool} {numbers : List (BitVec 32)} {found : List Reference}
    (h : numbers.mapM (fun i => m.refs[i.toNat]?) = some found) :
    m.anyRef test numbers = some (found.any test) := by
  induction numbers generalizing found with
  | nil =>
    obtain rfl := Option.some.inj h
    rfl
  | cons i is ih =>
    rw [List.mapM_cons] at h
    obtain ⟨r, hr, h⟩ := Option.bind_eq_some_iff.mp h
    obtain ⟨rest, hrest, h⟩ := Option.bind_eq_some_iff.mp h
    obtain rfl := Option.some.inj h
    rw [anyRef, hr, Option.bind_eq_bind, Option.bind_some, List.any_cons]
    cases htest : test r with
    | true => rfl
    | false => exact (if_neg Bool.false_ne_true).trans (ih hrest)

/-! All structures. -/

/-- What the calls keep. -/
structure Inv (m : ReferenceManager) : Prop where
  distinct : m.refs.Nodup
  seen : ∀ r, r ∈ m.seen ↔ r ∈ m.refs
  dests : ∀ p, p ∈ m.dests ↔ ∃ r ∈ m.refs, place r.to_ = p
  from_ : Indexed Reference.from_ m.refs m.fromIndex
  to_ : Indexed Reference.to_ m.refs m.toIndex
  length : m.refs.length ≤ 2 ^ 32

theorem refsAt_eq (h : Indexed endpoint m.refs index) (hlen : m.refs.length ≤ 2 ^ 32)
    (a : Address) :
    m.refsAt index (place a) = some (m.refs.filter fun r => endpoint r = a) := by
  unfold refsAt
  rw [h.getD, mapM_numbers hlen]
  simp only [place_inj]

theorem Inv.toConsistent (h : Inv m) : m.Consistent where
  distinct := h.distinct
  seen := h.seen
  dests := h.dests
  refsFrom := refsAt_eq h.from_ h.length
  refsTo := refsAt_eq h.to_ h.length

theorem Inv.anyFrom (h : Inv m) (a : Address) (test : Reference → Bool) :
    m.anyFrom a test = some ((m.refs.filter fun r => r.from_ = a).any test) :=
  anyRef_eq (refsAt_eq h.from_ h.length a)

theorem Inv.add {from_ to_ : Address} {refType : RefType} {opIndex : ℤ} (h : Inv m)
    (hroom : m.refs.length < 2 ^ 32 ∨ (⟨from_, to_, refType, opIndex⟩ : Reference) ∈ m.seen) :
    Inv (m.add from_ to_ refType opIndex) := by
  unfold ReferenceManager.add
  dsimp only
  split_ifs with hseen
  · exact h
  · refine ⟨?_, fun r => ?_, fun p => ?_, h.from_.push _, h.to_.push _, ?_⟩
    · refine List.nodup_append.mpr ⟨h.distinct, List.nodup_singleton _, fun x hx y hy => ?_⟩
      obtain rfl := List.mem_singleton.mp hy
      rintro rfl
      exact hseen ((h.seen _).mpr hx)
    · rw [Finset.mem_insert, h.seen, List.mem_append, List.mem_singleton, or_comm]
    · rw [Finset.mem_insert, h.dests]
      simp only [List.mem_append, List.mem_singleton, or_and_right, exists_or, exists_eq_left]
      rw [or_comm, eq_comm]
    · rw [List.length_append]
      exact hroom.resolve_right hseen

/-! `retype`. -/

section Retype

variable {from_ to_ : Address} {newType : RefType}

/-- What `retype` makes of a reference. -/
def retyped (from_ to_ : Address) (newType : RefType) (r : Reference) : Reference :=
  if Retyped from_ to_ newType r then { r with refType := newType } else r

theorem retyped_from (r : Reference) : (retyped from_ to_ newType r).from_ = r.from_ := by
  unfold retyped
  split_ifs <;> rfl

theorem retyped_to (r : Reference) : (retyped from_ to_ newType r).to_ = r.to_ := by
  unfold retyped
  split_ifs <;> rfl

theorem retyped_opIndex (r : Reference) :
    (retyped from_ to_ newType r).opIndex = r.opIndex := by
  unfold retyped
  split_ifs <;> rfl

theorem retypeRefs_refs (seen : Finset Reference) (generation : U64) :
    (retypeRefs from_ to_ newType refs seen generation).1 =
      refs.map (retyped from_ to_ newType) := by
  induction refs generalizing seen generation with
  | nil => rfl
  | cons r rs ih =>
    rw [retypeRefs, List.map_cons, retyped]
    split_ifs with h
    · exact congrArg _ (ih _ _)
    · exact congrArg _ (ih _ _)

/-- A key that comes in has the new type, so no later step of the loop takes it out. -/
theorem mem_retypeRefs_seen {seen : Finset Reference} {generation : U64} {k : Reference} :
    k ∈ (retypeRefs from_ to_ newType refs seen generation).2.1 ↔
      (∃ r ∈ refs, Retyped from_ to_ newType r ∧ { r with refType := newType } = k) ∨
        (k ∈ seen ∧ ∀ r ∈ refs, Retyped from_ to_ newType r → r ≠ k) := by
  induction refs generalizing seen generation with
  | nil => simp [retypeRefs]
  | cons r rs ih =>
    rw [retypeRefs, List.exists_mem_cons_iff, List.forall_mem_cons]
    split_ifs with h
    · rw [ih, Finset.mem_insert, Finset.mem_erase]
      have hnew : k = { r with refType := newType } →
          ∀ x ∈ rs, Retyped from_ to_ newType x → x ≠ k := by
        rintro rfl x - hx rfl
        exact hx.2.2 rfl
      constructor
      · rintro (hlater | ⟨rfl | ⟨hne, hmem⟩, hrest⟩)
        · exact Or.inl (Or.inr hlater)
        · exact Or.inl (Or.inl ⟨h, rfl⟩)
        · exact Or.inr ⟨hmem, fun _ => Ne.symm hne, hrest⟩
      · rintro ((⟨-, heq⟩ | hlater) | ⟨hmem, hne, hrest⟩)
        · exact Or.inr ⟨Or.inl heq.symm, hnew heq.symm⟩
        · exact Or.inl hlater
        · exact Or.inr ⟨Or.inr ⟨Ne.symm (hne h), hmem⟩, hrest⟩
    · rw [ih]
      simp only [h, false_and, false_or, false_imp_iff, true_and]

theorem numbers_map {f : Reference → Reference} (hf : ∀ r, endpoint (f r) = endpoint r) :
    numbers endpoint (refs.map f) p = numbers endpoint refs p := by
  unfold numbers
  rw [List.zipIdx_map, List.filter_map, List.map_map]
  simp only [Function.comp_def, Prod.map, hf, id]

theorem Indexed.map {f : Reference → Reference} (hf : ∀ r, endpoint (f r) = endpoint r)
    (h : Indexed endpoint refs index) : Indexed endpoint (refs.map f) index := by
  intro p
  rw [numbers_map hf]
  exact h p

/-- References between the same places stay different when their operands are. -/
theorem nodup_retyped (hdistinct : refs.Nodup)
    (hops : ((refs.filter fun r => r.from_ = from_ ∧ r.to_ = to_).map
      Reference.opIndex).Nodup) : (refs.map (retyped from_ to_ newType)).Nodup := by
  have hop : ∀ x ∈ refs, ∀ y ∈ refs, Retyped from_ to_ newType x → x.from_ = y.from_ →
      x.to_ = y.to_ → x.opIndex = y.opIndex → x = y := by
    intro x hx y hy hret hfrom hto heq
    refine List.inj_on_of_nodup_map hops
      (List.mem_filter.mpr ⟨hx, decide_eq_true ⟨hret.1, hret.2.1⟩⟩)
      (List.mem_filter.mpr ⟨hy, decide_eq_true ⟨?_, ?_⟩⟩) heq
    · exact hfrom.symm.trans hret.1
    · exact hto.symm.trans hret.2.1
  refine List.Nodup.map_on (fun x hx y hy heq => ?_) hdistinct
  have hfrom := congrArg Reference.from_ heq
  have hto := congrArg Reference.to_ heq
  have hopIndex := congrArg Reference.opIndex heq
  rw [retyped_from, retyped_from] at hfrom
  rw [retyped_to, retyped_to] at hto
  rw [retyped_opIndex, retyped_opIndex] at hopIndex
  by_cases hretX : Retyped from_ to_ newType x
  · exact hop x hx y hy hretX hfrom hto hopIndex
  · by_cases hretY : Retyped from_ to_ newType y
    · exact (hop y hy x hx hretY hfrom.symm hto.symm hopIndex.symm).symm
    · unfold retyped at heq
      rwa [if_neg hretX, if_neg hretY] at heq

theorem Inv.retype (h : Inv m)
    (hops : ((m.refs.filter fun r => r.from_ = from_ ∧ r.to_ = to_).map
      Reference.opIndex).Nodup) : Inv (m.retype from_ to_ newType) := by
  have hrefs : (m.retype from_ to_ newType).refs = m.refs.map (retyped from_ to_ newType) :=
    retypeRefs_refs m.seen m.generation
  constructor
  · rw [hrefs]
    exact nodup_retyped h.distinct hops
  · intro k
    rw [hrefs, List.mem_map]
    refine mem_retypeRefs_seen.trans ?_
    rw [h.seen]
    constructor
    · rintro (⟨r, hr, hret, rfl⟩ | ⟨hk, hne⟩)
      · exact ⟨r, hr, if_pos hret⟩
      · exact ⟨k, hk, if_neg fun hret => hne k hk hret rfl⟩
    · rintro ⟨r, hr, rfl⟩
      unfold retyped
      split_ifs with hret
      · exact Or.inl ⟨r, hr, hret, rfl⟩
      · exact Or.inr ⟨hr, fun x _ hx heq => hret (heq ▸ hx)⟩
  · intro p
    rw [hrefs]
    refine (h.dests p).trans ?_
    simp only [List.mem_map, exists_exists_and_eq_and, retyped_to]
  · rw [hrefs]
    exact h.from_.map retyped_from
  · rw [hrefs]
    exact h.to_.map retyped_to
  · rw [hrefs, List.length_map]
    exact h.length

end Retype

/-! The removals. -/

/-- The references that are kept, with the indices rebuilt. -/
theorem Inv.rebuild (h : Inv m) (keep : Reference → Bool) {m' : ReferenceManager}
    (hrefs : m'.refs = m.refs.filter keep)
    (hseen : ∀ r, r ∈ m'.seen ↔ r ∈ m.seen ∧ keep r)
    (hdests : ∀ p, p ∈ m'.dests ↔ ∃ r ∈ m'.refs, place r.to_ = p) :
    Inv m'.rebuildEndpointIndices where
  distinct := by
    change m'.refs.Nodup
    rw [hrefs]
    exact h.distinct.filter _
  seen r := by
    change r ∈ m'.seen ↔ r ∈ m'.refs
    rw [hseen, hrefs, List.mem_filter, h.seen]
  dests := hdests
  from_ := indexed_rebuild m'.refs
  to_ := indexed_rebuild m'.refs
  length := by
    change m'.refs.length ≤ 2 ^ 32
    rw [hrefs]
    exact (List.length_filter_le _ _).trans h.length

theorem Inv.remove {from_ to_ : Address} {refType : RefType} (h : Inv m) :
    ∃ m', m.remove from_ to_ refType = some m' ∧ Inv m' := by
  unfold ReferenceManager.remove
  rw [h.anyFrom, Option.bind_eq_bind, Option.bind_some]
  split_ifs with hfound
  · refine ⟨_, rfl, h.rebuild (fun r => ¬ Removed from_ to_ refType r) rfl
      (fun r => ?_) fun p => ?_⟩
    · exact Finset.mem_filter.trans (and_congr_right fun _ => decide_eq_true_iff.symm)
    · dsimp only
      split_ifs with hany
      -- another reference still leads there
      · refine (h.dests p).trans ⟨fun ⟨r, hr, hp⟩ => ?_, fun ⟨r, hr, hp⟩ => ?_⟩
        · by_cases hrem : Removed from_ to_ refType r
          · obtain ⟨x, hx, hto⟩ := List.any_eq_true.mp hany
            refine ⟨x, hx, hp ▸ ?_⟩
            rw [of_decide_eq_true hto, hrem.2.1]
          · exact ⟨r, List.mem_filter.mpr ⟨hr, decide_eq_true hrem⟩, hp⟩
        · exact ⟨r, (List.mem_filter.mp hr).1, hp⟩
      · have hnone : ∀ r ∈ m.refs, ¬ Removed from_ to_ refType r → r.to_ ≠ to_ :=
          fun r hr hrem hto => hany (List.any_eq_true.mpr
            ⟨r, List.mem_filter.mpr ⟨hr, decide_eq_true hrem⟩, decide_eq_true hto⟩)
        rw [Finset.mem_erase, h.dests]
        constructor
        · rintro ⟨hne, r, hr, rfl⟩
          refine ⟨r, List.mem_filter.mpr ⟨hr, decide_eq_true fun hrem => hne ?_⟩, rfl⟩
          rw [hrem.2.1]
        · rintro ⟨r, hr, rfl⟩
          obtain ⟨hr, hrem⟩ := List.mem_filter.mp hr
          exact ⟨fun heq => hnone r hr (of_decide_eq_true hrem) (place_inj.mp heq), r, hr, rfl⟩
  · exact ⟨m, rfl, h⟩

theorem Inv.removeRefsFromSet (h : Inv m) (set : AddressSet) :
    Inv (m.removeRefsFromSet set) := by
  unfold ReferenceManager.removeRefsFromSet
  split_ifs with hany
  · refine h.rebuild (fun r => !set.contains r.from_) rfl (fun r => ?_) fun p => ?_
    · exact Finset.mem_filter.trans (and_congr_right fun _ => by rw [Bool.not_eq_true'])
    · dsimp only
      rw [List.mem_toFinset, List.mem_map]
  · exact h

/-! Runs. -/

theorem Inv.step (h : Inv m) {c : Command} (hkeeps : m.Keeps c) :
    ∃ m', m.step c = some m' ∧ Inv m' := by
  cases c with
  | add => exact ⟨_, rfl, h.add hkeeps⟩
  | retype => exact ⟨_, rfl, h.retype hkeeps⟩
  | remove => exact h.remove
  | removeRefsFromSet set => exact ⟨_, rfl, h.removeRefsFromSet set⟩

theorem KeepingRun.inv (h : KeepingRun m) : Inv m := by
  induction h with
  | new =>
    exact ⟨List.nodup_nil, fun _ => Iff.rfl, fun p => by simp, indexed_nil, indexed_nil, by simp⟩
  | call _ hkeeps hstep ih =>
    obtain ⟨m', hm', hinv⟩ := ih.step hkeeps
    obtain rfl := Option.some.inj (hm'.symm.trans hstep)
    exact hinv

/-! What the other calls break. -/

theorem mapM_concat {α β : Type} {f : α → Option β} {l : List α} {a : α} {out : List β} {b : β}
    (h : (l ++ [a]).mapM f = some (out ++ [b])) : f a = some b := by
  rw [List.mapM_append] at h
  obtain ⟨xs, -, h⟩ := Option.bind_eq_some_iff.mp h
  obtain ⟨ys, hys, h⟩ := Option.bind_eq_some_iff.mp h
  rw [List.mapM_cons] at hys
  obtain ⟨y, hy, hys⟩ := Option.bind_eq_some_iff.mp hys
  obtain rfl := Option.some.inj hys
  have heq : xs ++ [y] = out ++ [b] := Option.some.inj h
  rw [hy, (List.append_inj' heq rfl).2 |> List.singleton_inj.mp]

/-- The number `2 ^ 32` is stored as zero, and the new reference is not the first. -/
theorem Inv.keeps_add {from_ to_ : Address} {refType : RefType} {opIndex : ℤ} (h : Inv m)
    (hadd : (m.add from_ to_ refType opIndex).Consistent) :
    m.Keeps (.add from_ to_ refType opIndex) := by
  by_contra hkeeps
  obtain ⟨hlen, hseen⟩ := not_or.mp hkeeps
  have hlen : m.refs.length = 2 ^ 32 := le_antisymm h.length (not_lt.mp hlen)
  have hrefs := hadd.refsFrom from_
  unfold ReferenceManager.add at hrefs
  rw [if_neg hseen] at hrefs
  unfold ReferenceManager.refsFrom refsAt at hrefs
  dsimp only at hrefs
  rw [(h.from_.push ⟨from_, to_, refType, opIndex⟩).getD, numbers_concat, if_pos rfl,
    List.filter_append, List.filter_singleton, decide_eq_true rfl, hlen] at hrefs
  have hfirst := mapM_concat hrefs
  rw [List.getElem?_append_left (by rw [hlen]; decide)] at hfirst
  exact hseen ((h.seen _).mpr (List.mem_of_getElem? hfirst))

theorem Inv.keeps_retype {from_ to_ : Address} {newType : RefType} (h : Inv m)
    (hretype : (m.retype from_ to_ newType).Consistent) :
    m.Keeps (.retype from_ to_ newType) := by
  have hnodup := hretype.distinct
  rw [show (m.retype from_ to_ newType).refs = m.refs.map (retyped from_ to_ newType) from
    retypeRefs_refs m.seen m.generation] at hnodup
  refine List.Nodup.map_on (fun x hx y hy hop => ?_) (h.distinct.filter _)
  obtain ⟨hx, hxe⟩ := List.mem_filter.mp hx
  obtain ⟨hy, hye⟩ := List.mem_filter.mp hy
  have hbetween : ∀ r : Reference, r.from_ = from_ ∧ r.to_ = to_ →
      retyped from_ to_ newType r = ⟨from_, to_, newType, r.opIndex⟩ := by
    rintro ⟨f, t, ty, op⟩ ⟨rfl, rfl⟩
    unfold retyped
    split_ifs with hret
    · rfl
    · have hty : ty = newType := by
        by_contra hne
        exact hret ⟨rfl, rfl, hne⟩
      rw [hty]
  refine List.inj_on_of_nodup_map hnodup hx hy ?_
  rw [hbetween x (of_decide_eq_true hxe), hbetween y (of_decide_eq_true hye), hop]

/-- After calls that each meet the condition everything agrees, and it still does after one more
call just when that call meets it too. -/
theorem KeepingRun.consistent (h : KeepingRun m) :
    m.Consistent ∧ ∀ c, ∃ m', m.step c = some m' ∧ (m'.Consistent ↔ m.Keeps c) := by
  have hinv := h.inv
  refine ⟨hinv.toConsistent, fun c => ?_⟩
  cases c with
  | add from_ to_ refType opIndex =>
    exact ⟨_, rfl, hinv.keeps_add, fun hkeeps => (hinv.add hkeeps).toConsistent⟩
  | retype from_ to_ newType =>
    exact ⟨_, rfl, hinv.keeps_retype, fun hkeeps => (hinv.retype hkeeps).toConsistent⟩
  | remove from_ to_ refType =>
    obtain ⟨m', hm', h'⟩ := hinv.remove
    exact ⟨m', hm', fun _ => trivial, fun _ => h'.toConsistent⟩
  | removeRefsFromSet set =>
    exact ⟨_, rfl, fun _ => trivial, fun _ => (hinv.removeRefsFromSet set).toConsistent⟩

theorem KeepingRun.consistent_added :
    (add {} ⟨0, 16⟩ ⟨0, 32⟩ .unconditionalJump (-1)).Consistent :=
  (KeepingRun.call (c := .add ⟨0, 16⟩ ⟨0, 32⟩ .unconditionalJump (-1)) .new
    (Or.inl (by decide)) rfl).consistent.1

/-- A jump and a call on the same operand become two references that agree in everything. -/
theorem retype_repeats :
    ¬ ∀ (calls : List Command) (m : ReferenceManager),
      calls.foldlM (fun m c => m.step c) {} = some m → m.Consistent := by
  intro h
  have hm := h [.add ⟨0, 16⟩ ⟨0, 32⟩ .unconditionalJump (-1),
    .add ⟨0, 16⟩ ⟨0, 32⟩ .unconditionalCall (-1),
    .retype ⟨0, 16⟩ ⟨0, 32⟩ .unconditionalCall] _ rfl
  exact absurd hm.distinct (by decide)

end ReferenceManager
end Mosura
