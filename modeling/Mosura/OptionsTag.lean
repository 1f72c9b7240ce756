import Mosura.Options

/-! Which options have a tag of their own. -/

namespace Mosura
namespace Options
open Lib Lib.Text

/-- A value that a key can be set to. -/
def Settable (s : OptionSpec) (v : Text) : Prop := ∃ value, validate s value = .ok () ∧ trim value = v

/-- Any text is a value of the key: a string, or a list of anything. -/
def OptionSpec.Free (s : OptionSpec) : Prop := s.ty = .str ∨ s.ty = .list []

def join (l : List (Text × Text)) : Text := [';'].intercalate (l.map part)

variable (reg : Registry)

/-- A setting that enters the tag. -/
def Enters (e : Text × Text) : Prop :=
  ∃ s, reg.find e.1 = some s ∧ s.affects = .result ∧ Settable s e.2 ∧ e.2 ≠ s.default

/-- What the settings that enter a tag look like. -/
structure Legal (l : List (Text × Text)) : Prop where
  sorted : KeyMap.Sorted l
  enters : ∀ e ∈ l, Enters reg e

/-- The value reads as another one with further settings after it. -/
def Splits (key v : Text) : Prop :=
  ∃ u more, more ≠ [] ∧ Legal reg ((key, u) :: more) ∧ v = u ++ ';' :: join more

/-- Of the settings none is free text but the last, and that one does not split. -/
def Clear : List (Text × Text) → Prop
  | [] => True
  | [e] => ¬ Splits reg e.1 e.2
  | e :: l => (∀ s, reg.find e.1 = some s → ¬ s.Free) ∧ Clear l

/-- The settings of the options that enter the tag. -/
def entered (o : Options) : List (Text × Text) :=
  o.values.filter fun e => (reg.find e.1).any fun s => s.affects = .result ∧ e.2 ≠ s.default

variable {reg}

/-! The values of a type. -/

theorem settable_of_free {s : OptionSpec} (h : s.Free) {v : Text} (hv : Trimmed v) :
    Settable s v := by
  refine ⟨v, ?_, trim_eq_self hv⟩
  unfold validate
  obtain h | h := h
  · rw [h]
  · rw [h]
    have hnone : (tokens v).find? (fun tok => ([] : List Text) ≠ [] ∧ tok ∉ ([] : List Text)) =
        none := List.find?_eq_none.mpr fun tok _ => by simp
    simp only [hnone]

theorem settable_trimmed {s : OptionSpec} {v : Text} (h : Settable s v) : Trimmed v := by
  obtain ⟨value, -, rfl⟩ := h
  exact trimmed_trim value

theorem semicolon_not_white : isWhitespace ';' = false := by decide

theorem toDigit_semicolon (radix : ℕ) : toDigit radix ';' = none := rfl

/-- A number is made of digits. -/
theorem not_mem_of_fromStrRadix {radix : ℕ} {t : Text} (h : (fromStrRadix radix t).isSome) :
    ';' ∉ t := by
  have hfold : ∀ (l : Text) (n : ℕ), (l.foldlM (fun n c => (toDigit radix c).bind fun d =>
      if n * radix + d < 2 ^ 64 then some (n * radix + d) else none) n).isSome → ';' ∉ l := by
    intro l
    induction l with
    | nil => exact fun _ _ => List.not_mem_nil
    | cons c l ih =>
      intro n h hmem
      rw [List.foldlM_cons] at h
      obtain heq | hmem := List.mem_cons.mp hmem
      · rw [← heq, toDigit_semicolon] at h
        exact nomatch h
      · cases hstep : (toDigit radix c).bind fun d =>
          if n * radix + d < 2 ^ 64 then some (n * radix + d) else none with
        | none =>
          rw [hstep] at h
          exact nomatch h
        | some m =>
          rw [hstep] at h
          exact ih m h hmem
  unfold fromStrRadix at h
  dsimp only at h
  split_ifs at h
  · exact absurd h (by decide)
  · split at h
    · intro hmem
      obtain heq | hmem := List.mem_cons.mp hmem
      · exact absurd heq (by decide)
      · exact hfold _ _ h hmem
    · exact hfold _ _ h

theorem not_mem_of_parseHex {t : Text} (h : (parseHex t).isSome) : ';' ∉ trim t := by
  unfold parseHex at h
  dsimp only at h
  split_ifs at h
  · exact absurd h (by decide)
  · have hdigits := not_mem_of_fromStrRadix h
    split at hdigits
    · next heq =>
      rw [heq]
      simpa using hdigits
    · next heq =>
      rw [heq]
      simpa using hdigits
    · exact hdigits

/-- A `;` is in one of the parts between commas. -/
theorem exists_token {t : Text} (h : ';' ∈ t) : ∃ tok ∈ tokens t, ';' ∈ tok := by
  obtain ⟨p, hp, hmem⟩ := exists_mem_splitOn h (by decide : ';' ≠ ',')
  have htrim := mem_trim hmem semicolon_not_white
  refine ⟨trim p, List.mem_filter.mpr ⟨List.mem_map_of_mem hp, ?_⟩, htrim⟩
  exact decide_eq_true (List.ne_nil_of_mem htrim)

/-- Only the value of a free key has a `;`. -/
theorem not_mem_of_settable {s : OptionSpec} (hs : s ∈ reg.specs) (hfree : ¬ s.Free) {v : Text}
    (h : Settable s v) : ';' ∉ v := by
  obtain ⟨value, hok, rfl⟩ := h
  have hplain := (reg.plain s hs).2
  unfold validate at hok
  split at hok
  · split_ifs at hok with hbool
    unfold parseBool at hbool
    have hyesno : ∀ w ∈ (["1", "true", "on", "yes", "0", "false", "off", "no"] : List Text),
        ';' ∉ w := by decide
    split_ifs at hbool with hyes hno
    · exact hyesno _ (List.mem_append_left _ hyes)
    · exact hyesno _ (List.mem_append_right ["1".toList, "true".toList, "on".toList, "yes".toList] hno)
    · exact nomatch hbool
  · split_ifs at hok with hnum
    exact not_mem_of_fromStrRadix hnum
  · split_ifs at hok with hhex
    obtain rfl | hhex := hhex
    · exact List.not_mem_nil
    · exact not_mem_of_parseHex hhex
  · next hty => exact absurd (.inl hty) hfree
  · next hty =>
    split_ifs at hok with hlist
    rw [hty] at hplain
    exact hplain _ hlist
  · next allowed hty =>
    split at hok
    · exact nomatch hok
    · next hnone =>
      intro hmem
      obtain ⟨tok, htok, hsemi⟩ := exists_token (trim_subset _ hmem)
      have hallowed := List.find?_eq_none.mp hnone tok htok
      have hne : allowed ≠ [] := fun heq => hfree (.inr (heq ▸ hty))
      have hin : tok ∈ allowed := by
        by_contra hout
        exact hallowed (decide_eq_true ⟨hne, hout⟩)
      rw [hty] at hplain
      exact hplain tok hin hsemi
  · split_ifs at hok with hword
    · have hwords : ∀ w ∈ (["all", "none"] : List Text), ';' ∉ w := by decide
      exact hwords _ hword
    · split at hok
      · exact nomatch hok
      · next hnone =>
        intro hmem
        obtain ⟨tok, htok, hsemi⟩ := exists_token hmem
        have hhex := List.find?_eq_none.mp hnone tok htok
        rw [Option.isNone_iff_eq_none, ← Option.not_isSome_iff_eq_none, not_not] at hhex
        exact not_mem_of_parseHex hhex (mem_trim hsemi semicolon_not_white)

/-! The keys. -/

theorem mem_of_find {key : Text} {s : OptionSpec} (h : reg.find key = some s) :
    s ∈ reg.specs ∧ s.key = key := by
  unfold Registry.find at h
  have hkey := List.find?_some h
  exact ⟨List.mem_of_find?_eq_some h, of_decide_eq_true hkey⟩

/-- What no key character is, is in no key. -/
theorem not_mem_key {key : Text} {s : OptionSpec} (h : reg.find key = some s) {c : Char}
    (hc : isKeyChar c = false) : c ∉ key := by
  obtain ⟨hs, rfl⟩ := mem_of_find h
  intro hmem
  rw [(reg.spelled s hs).2 c hmem] at hc
  exact nomatch hc

theorem not_white_of_isKeyChar {c : Char} (h : isKeyChar c = true) : isWhitespace c = false := by
  have hrange : 45 ≤ c.toNat ∧ c.toNat ≤ 122 := by
    unfold isKeyChar at h
    simp only [Bool.or_eq_true, Bool.and_eq_true, decide_eq_true_eq] at h
    obtain ((⟨hlo, hhi⟩ | ⟨hlo, hhi⟩) | rfl) | rfl := h
    · exact ⟨le_trans (by decide) (show 'a'.toNat ≤ c.toNat from hlo), hhi⟩
    · exact ⟨le_trans (by decide) (show '0'.toNat ≤ c.toNat from hlo),
        le_trans (show c.toNat ≤ '9'.toNat from hhi) (by decide)⟩
    · decide
    · decide
  obtain ⟨hlo, hhi⟩ := hrange
  unfold isWhitespace
  simp only [List.mem_cons, List.not_mem_nil, or_false, Bool.or_eq_false_iff,
    Bool.and_eq_false_iff, decide_eq_false_iff_not]
  omega

theorem trimmed_key {key : Text} {s : OptionSpec} (h : reg.find key = some s) : Trimmed key := by
  obtain ⟨hs, rfl⟩ := mem_of_find h
  have hall := (reg.spelled s hs).2
  exact ⟨fun c hc => not_white_of_isKeyChar (hall c (List.mem_of_head? hc)),
    fun c hc => not_white_of_isKeyChar (hall c (List.mem_of_getLast? hc))⟩

theorem lookup_of_find {key : Text} {s : OptionSpec} (h : reg.find key = some s) :
    reg.lookup key = some s := by
  unfold Registry.lookup
  rw [trim_eq_self (trimmed_key h), h]

/-- A key with a blank after it is found too. -/
theorem lookup_blank {key : Text} {s : OptionSpec} (h : reg.find key = some s) :
    reg.lookup (key ++ [' ']) = some s := by
  have htrimmed := trimmed_key h
  have hne : key ≠ [] := by
    obtain ⟨hs, rfl⟩ := mem_of_find h
    exact (reg.spelled s hs).1
  have htrim : trim (key ++ [' ']) = key := by
    have hkey := trim_eq_self htrimmed
    unfold trim at hkey ⊢
    obtain ⟨c, rest, rfl⟩ := List.exists_cons_of_ne_nil hne
    have hc : ¬ isWhitespace c = true := Bool.eq_false_iff.mp (htrimmed.head c rfl)
    rw [List.dropWhile_cons_of_neg hc] at hkey
    rw [List.cons_append, List.dropWhile_cons_of_neg hc, ← List.cons_append,
      List.rdropWhile_concat_pos _ _ _ (by decide), hkey]
  unfold Registry.lookup
  rw [htrim, h]

/-! The text of settings. -/

/-- What comes after a value. -/
def after (l : List (Text × Text)) : Text := if l = [] then [] else ';' :: join l

variable {e e' : Text × Text} {l l' : List (Text × Text)}

theorem after_of_ne_nil (h : l ≠ []) : after l = ';' :: join l := if_neg h

theorem join_cons (e : Text × Text) (l : List (Text × Text)) :
    join (e :: l) = e.1 ++ '=' :: (e.2 ++ after l) := by
  cases l with
  | nil =>
    rw [after, if_pos rfl, List.append_nil]
    exact List.intercalate_singleton
  | cons e' l =>
    rw [after_of_ne_nil (List.cons_ne_nil _ _), join, List.map_cons, List.map_cons,
      List.intercalate_cons_cons, part, ← List.map_cons, List.append_assoc, List.append_assoc]
    rfl

theorem Legal.of_cons (h : Legal reg (e :: l)) : Legal reg l :=
  ⟨(List.pairwise_cons.mp h.sorted).2, fun x hx => h.enters x (List.mem_cons_of_mem _ hx)⟩

/-- Settings of the same text begin with the same key. -/
theorem join_cons_eq (h : Legal reg (e :: l)) (h' : Legal reg (e' :: l'))
    (heq : join (e :: l) = join (e' :: l')) : e.1 = e'.1 ∧ e.2 ++ after l = e'.2 ++ after l' := by
  obtain ⟨s, hs, -⟩ := h.enters e List.mem_cons_self
  obtain ⟨s', hs', -⟩ := h'.enters e' List.mem_cons_self
  rw [join_cons, join_cons] at heq
  exact append_cons_inj (not_mem_key hs rfl) (not_mem_key hs' rfl) heq

/-- Clear settings are the only ones of their text. -/
theorem eq_of_clear (hl : Legal reg l) (hl' : Legal reg l') (hclear : Clear reg l)
    (hne : l ≠ []) (hne' : l' ≠ []) (heq : join l = join l') : l = l' := by
  induction l generalizing l' with
  | nil => exact absurd rfl hne
  | cons e l ih =>
    obtain ⟨e', l', rfl⟩ := List.exists_cons_of_ne_nil hne'
    obtain ⟨hkey, hrest⟩ := join_cons_eq hl hl' heq
    cases l with
    | nil =>
      rw [after, if_pos rfl, List.append_nil] at hrest
      by_cases hnil : l' = []
      · subst hnil
        rw [after, if_pos rfl, List.append_nil] at hrest
        rw [Prod.ext hkey hrest]
      · -- the value of the one is that of the other with further settings
        refine absurd ⟨e'.2, l', hnil, hkey ▸ hl', ?_⟩ hclear
        rw [hrest, after_of_ne_nil hnil]
    | cons q l =>
      obtain ⟨s, hs, -, hv, -⟩ := hl.enters e List.mem_cons_self
      obtain ⟨s', hs', -, hv', -⟩ := hl'.enters e' List.mem_cons_self
      obtain rfl : s = s' := Option.some.inj (hs.symm.trans (hkey ▸ hs'))
      have hfree := hclear.1 s hs
      have hmem := not_mem_of_settable (mem_of_find hs).1 hfree hv
      have hmem' := not_mem_of_settable (mem_of_find hs).1 hfree hv'
      rw [after_of_ne_nil (List.cons_ne_nil _ _)] at hrest
      by_cases hnil : l' = []
      · rw [hnil, after, if_pos rfl, List.append_nil] at hrest
        exact absurd (hrest ▸ List.mem_append_right _ List.mem_cons_self) hmem'
      · rw [after_of_ne_nil hnil] at hrest
        obtain ⟨hvalue, hjoin⟩ := append_cons_inj hmem hmem' hrest
        rw [Prod.ext hkey hvalue,
          ih hl.of_cons hl'.of_cons hclear.2 (List.cons_ne_nil _ _) hnil hjoin]

/-- A text of settings ends in a value or in the `=` before an empty one. -/
theorem join_last (h : Legal reg l) (hne : l ≠ []) :
    ∀ c ∈ (join l).getLast?, isWhitespace c = false := by
  induction l with
  | nil => exact absurd rfl hne
  | cons e l ih =>
    have hafter : ∀ c ∈ (e.2 ++ after l).getLast?, isWhitespace c = false := by
      by_cases hnil : l = []
      · obtain ⟨s, -, -, hv, -⟩ := h.enters e List.mem_cons_self
        rw [hnil, after, if_pos rfl, List.append_nil]
        exact (settable_trimmed hv).last
      · intro c hc
        rw [after_of_ne_nil hnil, List.getLast?_append, List.getLast?_cons,
          Option.some_or] at hc
        cases hlast : (join l).getLast? with
        | none =>
          rw [hlast] at hc
          obtain rfl := Option.some.inj hc
          exact semicolon_not_white
        | some d =>
          rw [hlast] at hc
          obtain rfl := Option.some.inj hc
          exact ih h.of_cons hnil d hlast
    intro c hc
    rw [join_cons, List.getLast?_append, List.getLast?_cons, Option.some_or] at hc
    cases hlast : (e.2 ++ after l).getLast? with
    | none =>
      rw [hlast] at hc
      obtain rfl := Option.some.inj hc
      decide
    | some d =>
      rw [hlast] at hc
      obtain rfl := Option.some.inj hc
      exact hafter d hlast

/-- Settings after a free key's are text of its value just as well. -/
theorem Legal.merge {s : OptionSpec} (h : Legal reg (e :: l)) (hs : reg.find e.1 = some s)
    (hfree : s.Free) (hne : l ≠ []) : Legal reg [(e.1, e.2 ++ ';' :: join l)] := by
  obtain ⟨s', hs', hresult, hv, -⟩ := h.enters e List.mem_cons_self
  obtain rfl : s = s' := Option.some.inj (hs.symm.trans hs')
  refine ⟨List.pairwise_singleton _ _, fun x hx => ?_⟩
  obtain rfl := List.mem_singleton.mp hx
  refine ⟨s, hs, hresult, settable_of_free hfree ?_, fun heq => ?_⟩
  · exact (settable_trimmed hv).append semicolon_not_white (join_last h.of_cons hne)
  · have hmem : ';' ∈ e.2 ++ ';' :: join l := List.mem_append_right _ List.mem_cons_self
    exact (reg.plain s (mem_of_find hs).1).1 (heq ▸ hmem)

/-- Settings that are not clear share their text with others. -/
theorem exists_other (h : Legal reg l) (hclear : ¬ Clear reg l) :
    ∃ l', Legal reg l' ∧ l' ≠ [] ∧ l' ≠ l ∧ join l' = join l := by
  induction l with
  | nil => exact absurd trivial hclear
  | cons e l ih =>
    cases l with
    | nil =>
      obtain ⟨u, more, hmore, hlegal, hv⟩ := not_not.mp hclear
      refine ⟨(e.1, u) :: more, hlegal, List.cons_ne_nil _ _, fun heq => ?_, ?_⟩
      · exact hmore (List.cons.inj heq).2
      · rw [join_cons, join_cons, after_of_ne_nil hmore, ← hv, after, if_pos rfl,
          List.append_nil]
    | cons q l =>
      have hnil : q :: l ≠ [] := List.cons_ne_nil _ _
      by_cases htail : Clear reg (q :: l)
      · obtain ⟨s, hs, hfree⟩ : ∃ s, reg.find e.1 = some s ∧ s.Free := by
          by_contra hnone
          exact hclear ⟨fun s hs hfree => hnone ⟨s, hs, hfree⟩, htail⟩
        refine ⟨_, h.merge hs hfree hnil, List.cons_ne_nil _ _, fun heq => ?_, ?_⟩
        · exact absurd (List.cons.inj heq).2.symm hnil
        · rw [join_cons (e.1, _) [], join_cons e (q :: l), after_of_ne_nil hnil, after, if_pos rfl,
            List.append_nil]
      · obtain ⟨l', hl', hne', hother, hjoin⟩ := ih h.of_cons htail
        refine ⟨e :: l', ⟨?_, ?_⟩, List.cons_ne_nil _ _, fun heq => ?_, ?_⟩
        · -- the first key of the other settings is the same
          obtain ⟨q', l', rfl⟩ := List.exists_cons_of_ne_nil hne'
          have hkey := (join_cons_eq hl' h.of_cons hjoin).1
          have hlt : e.1 < q'.1 := hkey ▸ (List.pairwise_cons.mp h.sorted).1 q List.mem_cons_self
          refine List.pairwise_cons.mpr ⟨fun x hx => ?_, hl'.sorted⟩
          obtain rfl | hx := List.mem_cons.mp hx
          · exact hlt
          · exact hlt.trans ((List.pairwise_cons.mp hl'.sorted).1 x hx)
        · intro x hx
          obtain rfl | hx := List.mem_cons.mp hx
          · exact h.enters x List.mem_cons_self
          · exact hl'.enters x hx
        · exact hother (List.cons.inj heq).2
        · rw [join_cons, join_cons, after_of_ne_nil hne', after_of_ne_nil hnil, hjoin]

/-! The calls. -/

variable {core : Declarations} {o o' : Options}

/-- What holds of options after any calls. -/
structure Stored (reg : Registry) (o : Options) : Prop where
  sorted : KeyMap.Sorted o.values
  values : ∀ e ∈ o.values, ∃ s, reg.find e.1 = some s ∧ Settable s e.2

theorem spec_eq_ok {key : Text} {s : OptionSpec} (h : spec reg key = .ok s) :
    reg.find (trim key) = some s := by
  unfold spec Registry.lookup at h
  split at h
  · next heq => exact heq.trans (congrArg some (Except.ok.inj h))
  · exact nomatch h

theorem spec_of_lookup {key : Text} {s : OptionSpec} (h : reg.lookup key = some s) :
    spec reg key = .ok s := by
  unfold spec
  rw [h]

theorem Stored.set {key value : Text} (h : Stored reg o) (heq : o.set reg core key value = .ok o') :
    Stored reg o' := by
  unfold Options.set at heq
  cases hspec : spec reg key with
  | error e =>
    rw [hspec] at heq
    exact nomatch heq
  | ok s =>
    rw [hspec] at heq
    change (((validate s value).mapError _) >>= fun _ => core.check key value >>= fun _ => _) = _
      at heq
    cases hvalid : validate s value with
    | error e =>
      rw [hvalid] at heq
      exact nomatch heq
    | ok u =>
      rw [hvalid] at heq
      change (core.check key value >>= fun _ => _) = _ at heq
      cases hcheck : core.check key value with
      | error e =>
        rw [hcheck] at heq
        exact nomatch heq
      | ok u =>
        rw [hcheck] at heq
        obtain rfl := Except.ok.inj heq
        have hfind := spec_eq_ok hspec
        refine ⟨h.sorted.insert _, fun e he => ?_⟩
        obtain rfl | he := KeyMap.eq_or_mem_of_mem_insert he
        · exact ⟨s, (mem_of_find hfind).2 ▸ hfind, value, hvalid, rfl⟩
        · exact h.values e he

theorem Stored.unset {key : Text} (h : Stored reg o) (heq : o.unset reg key = .ok o') :
    Stored reg o' := by
  unfold Options.unset at heq
  cases hspec : spec reg key with
  | error e =>
    rw [hspec] at heq
    exact nomatch heq
  | ok s =>
    rw [hspec] at heq
    obtain rfl := Except.ok.inj heq
    exact ⟨h.sorted.filter _, fun e he => h.values e (List.mem_filter.mp he).1⟩

theorem Stored.assignPart {part : Text} (h : Stored reg o)
    (heq : o.assignPart reg core part = .ok o') : Stored reg o' := by
  unfold Options.assignPart at heq
  split_ifs at heq
  · exact h.set heq
  · cases hspec : spec reg part with
    | error e =>
      rw [hspec] at heq
      exact nomatch heq
    | ok s =>
      rw [hspec] at heq
      change (if _ then _ else _) = _ at heq
      split_ifs at heq
      exact h.set heq

theorem Stored.assignParts (h : Stored reg o) (parts : List Text) :
    Stored reg (o.assignParts reg core parts).1 := by
  induction parts generalizing o with
  | nil => exact h
  | cons part parts ih =>
    unfold Options.assignParts
    split
    · next heq => exact ih (h.assignPart heq)
    · exact h

theorem Built.stored (h : Built reg core o) : Stored reg o := by
  induction h with
  | new => exact ⟨List.Pairwise.nil, nofun⟩
  | set _ heq ih => exact ih.set heq
  | unset _ heq ih => exact ih.unset heq
  | assign text _ ih => exact ih.assignParts _

/-- With a blank after the key any settable value is set: the declarations are only parsed under
the key itself. -/
theorem set_blank {key value : Text} {s : OptionSpec} (hs : reg.find key = some s)
    (hvalid : validate s value = .ok ()) :
    o.set reg core (key ++ [' ']) value =
      .ok { values := KeyMap.insert key (trim value) o.values } := by
  have hother : ∀ k ∈ (["decompile.indirect-inputs", "decompile.function-inputs",
      "decompile.function-outputs"] : List Text), key ++ [' '] ≠ k := by
    intro k hk heq
    have hblank : ∀ k ∈ (["decompile.indirect-inputs", "decompile.function-inputs",
        "decompile.function-outputs"] : List Text), ' ' ∉ k := by decide
    exact hblank k hk (heq ▸ List.mem_append_right key List.mem_cons_self)
  have hcheck : core.check (key ++ [' ']) value = .ok () := by
    unfold Declarations.check
    rw [if_neg (hother _ (by simp)), if_neg (hother _ (by simp)), if_neg (hother _ (by simp))]
    rfl
  unfold Options.set
  rw [spec_of_lookup (lookup_blank hs)]
  change (((validate s value).mapError _) >>= fun _ => core.check _ value >>= fun _ => _) = _
  rw [hvalid]
  change (core.check _ value >>= fun _ => _) = _
  rw [hcheck, ← (mem_of_find hs).2]
  rfl

/-- All settings that may enter a tag are those of some options. -/
theorem Legal.exists_built (h : Legal reg l) : ∃ o, Built reg core o ∧ o.values = l := by
  induction l with
  | nil => exact ⟨{}, .new, rfl⟩
  | cons e l ih =>
    obtain ⟨o, ho, rfl⟩ := ih h.of_cons
    obtain ⟨s, hs, -, ⟨value, hvalid, hv⟩, -⟩ := h.enters e List.mem_cons_self
    refine ⟨_, ho.set (set_blank hs hvalid), ?_⟩
    exact (KeyMap.insert_of_lt (List.pairwise_cons.mp h.sorted).1 _).trans (by rw [hv])

/-! The tag. -/

theorem entered_legal (h : Stored reg o) : Legal reg (o.entered reg) := by
  refine ⟨h.sorted.filter _, fun e he => ?_⟩
  obtain ⟨hmem, hpass⟩ := List.mem_filter.mp he
  obtain ⟨s, hs, hv⟩ := h.values e hmem
  rw [hs] at hpass
  obtain ⟨hresult, hne⟩ := of_decide_eq_true hpass
  exact ⟨s, hs, hresult, hv, hne⟩

theorem entered_of_legal (h : Legal reg o.values) : o.entered reg = o.values := by
  refine List.filter_eq_self.mpr fun e he => ?_
  obtain ⟨s, hs, hresult, -, hne⟩ := h.enters e he
  rw [hs]
  exact decide_eq_true ⟨hresult, hne⟩

theorem filterM_eq_some {α : Type} {f : α → Option Bool} {p : α → Bool} {l : List α}
    (h : ∀ x ∈ l, f x = some (p x)) : l.filterM f = some (l.filter p) := by
  have haux : ∀ acc, List.filterAuxM f l acc = some ((l.filter p).reverse ++ acc) := by
    induction l with
    | nil => exact fun acc => rfl
    | cons x l ih =>
      intro acc
      have htail := ih fun y hy => h y (List.mem_cons_of_mem _ hy)
      rw [List.filterAuxM, h x List.mem_cons_self]
      change List.filterAuxM f l (cond (p x) (x :: acc) acc) = _
      rw [htail]
      cases hp : p x with
      | true => rw [List.filter_cons_of_pos hp, List.reverse_cons, List.append_assoc]; rfl
      | false => rw [List.filter_cons_of_neg (Bool.eq_false_iff.mp hp)]; rfl
  unfold List.filterM
  rw [haux, List.append_nil]
  exact congrArg some (List.reverse_reverse _)

theorem tag_eq (h : Stored reg o) :
    o.tag reg = some (if o.entered reg = [] then "default".toList else join (o.entered reg)) := by
  have hfilter : o.values.filterM (deviates reg) = some (o.entered reg) := by
    refine filterM_eq_some fun e he => ?_
    obtain ⟨s, hs, -⟩ := h.values e he
    rw [deviates, lookup_of_find hs, hs]
    rfl
  unfold tag
  rw [hfilter]
  rfl

theorem get_eq {key : Text} {s : OptionSpec} (hs : reg.find key = some s) :
    o.get reg key = .ok ((KeyMap.lookup key o.values).getD s.default) := by
  unfold get
  rw [spec_of_lookup (lookup_of_find hs), ← (mem_of_find hs).2]
  rfl

/-- A setting enters the tag when the effective value of its key is not the default. -/
theorem mem_entered_iff (h : Stored reg o) {key v : Text} {s : OptionSpec}
    (hs : reg.find key = some s) (hresult : s.affects = .result) :
    (key, v) ∈ o.entered reg ↔ v ≠ s.default ∧ o.get reg key = .ok v := by
  have hpass : ((reg.find key).any fun s => s.affects = .result ∧ v ≠ s.default) = true ↔
      v ≠ s.default := by
    rw [hs]
    exact decide_eq_true_iff.trans (and_iff_right hresult)
  unfold entered
  rw [List.mem_filter, hpass, ← KeyMap.lookup_eq_some_iff h.sorted, get_eq hs]
  constructor
  · rintro ⟨hlookup, hne⟩
    rw [hlookup]
    exact ⟨hne, rfl⟩
  · rintro ⟨hne, hget⟩
    refine ⟨?_, hne⟩
    cases hlookup : KeyMap.lookup key o.values with
    | none =>
      rw [hlookup] at hget
      exact absurd (Except.ok.inj hget).symm hne
    | some w =>
      rw [hlookup] at hget
      exact congrArg some (Except.ok.inj hget)

variable (reg core) in
/-- No other options have the tag, unless every result key has the same effective value in them. -/
def Separated (a : Options) : Prop :=
  ∀ b, Built reg core b → a.tag reg = b.tag reg →
    ∀ key s, reg.find key = some s → s.affects = .result → a.get reg key = b.get reg key

theorem get_eq_of_entered {a b : Options} (ha : Stored reg a) (hb : Stored reg b)
    (h : a.entered reg = b.entered reg) {key : Text} {s : OptionSpec}
    (hs : reg.find key = some s) (hresult : s.affects = .result) :
    a.get reg key = b.get reg key := by
  have hiff : ∀ v, v ≠ s.default → (a.get reg key = .ok v ↔ b.get reg key = .ok v) := by
    intro v hv
    have hmem := (mem_entered_iff ha hs hresult (v := v)).symm.trans
      (h ▸ mem_entered_iff hb hs hresult)
    rwa [and_iff_right hv, and_iff_right hv] at hmem
  rw [get_eq hs, get_eq hs] at hiff ⊢
  generalize (KeyMap.lookup key a.values).getD s.default = v at hiff ⊢
  generalize (KeyMap.lookup key b.values).getD s.default = w at hiff ⊢
  by_cases hv : v = s.default
  · by_cases hw : w = s.default
    · rw [hv, hw]
    · exact (hiff w hw).mpr rfl
  · exact ((hiff v hv).mp rfl).symm

theorem entered_eq_of_get {a b : Options} (ha : Stored reg a) (hb : Stored reg b)
    (h : ∀ key s, reg.find key = some s → s.affects = .result →
      a.get reg key = b.get reg key) : a.entered reg = b.entered reg := by
  have hsub : ∀ {a b : Options}, Stored reg a → Stored reg b →
      (∀ key s, reg.find key = some s → s.affects = .result →
        a.get reg key = b.get reg key) → ∀ e ∈ a.entered reg, e ∈ b.entered reg := by
    intro a b ha hb h e he
    obtain ⟨s, hs, hresult, -⟩ := (entered_legal ha).enters e he
    obtain ⟨hne, hget⟩ := (mem_entered_iff ha hs hresult).mp he
    exact (mem_entered_iff hb hs hresult).mpr ⟨hne, (h _ s hs hresult).symm.trans hget⟩
  refine (entered_legal ha).sorted.ext (entered_legal hb).sorted fun e => ⟨hsub ha hb h e, ?_⟩
  exact hsub hb ha (fun key s hs hresult => (h key s hs hresult).symm) e

theorem join_ne_default (e : Text × Text) (l : List (Text × Text)) :
    join (e :: l) ≠ "default".toList := by
  intro heq
  have hmem : '=' ∈ join (e :: l) := by
    rw [join_cons]
    exact List.mem_append_right _ List.mem_cons_self
  rw [heq] at hmem
  exact absurd hmem (by decide)

/-- Settings of the same tag are both none, or have the same text. -/
theorem join_eq_of_tag {a b : Options} (ha : Stored reg a) (hb : Stored reg b)
    (h : a.tag reg = b.tag reg) :
    (a.entered reg = [] ↔ b.entered reg = []) ∧ join (a.entered reg) = join (b.entered reg) := by
  rw [tag_eq ha, tag_eq hb] at h
  generalize a.entered reg = l at h ⊢
  generalize b.entered reg = l' at h ⊢
  have heq := Option.some.inj h
  cases l with
  | nil =>
    cases l' with
    | nil => exact ⟨Iff.rfl, rfl⟩
    | cons e l' => exact absurd heq.symm (join_ne_default e l')
  | cons e l =>
    cases l' with
    | nil => exact absurd heq (join_ne_default e l)
    | cons e' l' => exact ⟨iff_of_false (List.cons_ne_nil _ _) (List.cons_ne_nil _ _), heq⟩

/-- Options have a tag of their own when their settings are clear. -/
theorem tag_separates_iff (reg : Registry) (core : Declarations) (a : Options)
    (ha : Built reg core a) : Separated reg core a ↔ Clear reg (a.entered reg) := by
  have hstored := ha.stored
  constructor
  · intro h
    by_contra hclear
    obtain ⟨l, hl, hne, hother, hjoin⟩ := exists_other (entered_legal hstored) hclear
    obtain ⟨b, hb, rfl⟩ : ∃ b, Built reg core b ∧ b.values = l := hl.exists_built
    have hentered := entered_of_legal hl
    have hnil : a.entered reg ≠ [] := fun heq => hclear (heq ▸ trivial)
    have htag : a.tag reg = b.tag reg := by
      rw [tag_eq hstored, tag_eq hb.stored, hentered, if_neg hnil, if_neg hne, hjoin]
    exact hother (hentered.symm.trans (entered_eq_of_get hstored hb.stored (h b hb htag)).symm)
  · intro hclear b hb htag key s hs hresult
    obtain ⟨hnil, hjoin⟩ := join_eq_of_tag hstored hb.stored htag
    refine get_eq_of_entered hstored hb.stored ?_ hs hresult
    by_cases hempty : a.entered reg = []
    · rw [hempty, hnil.mp hempty]
    · exact eq_of_clear (entered_legal hstored) (entered_legal hb.stored) hclear hempty
        (fun h => hempty (hnil.mpr h)) hjoin

/-- Two of the keys of `keys.rs`. -/
def loadEntries : OptionSpec where
  key := "load.entries"
  ty := .str
  default := ""
  doc := "the entry points of a raw image (load.loader=raw), hex, comma-separated: each is an " ++
    "entry point the analysis starts from, in place of the base (a cartridge's vector table, a " ++
    "ROM's reset address)"
  affects := .result

def loadFlows : OptionSpec where
  key := "load.flows"
  ty := .str
  default := ""
  doc := "computed flows the analysis cannot bound, declared: `jump:FROM=TO,TO,…` (a dispatch " ++
    "whose targets are code in the jumping function) and `call:FROM=TO,…` (targets that are " ++
    "functions), `;`-separated, hex — Ghidra's user COMPUTED_JUMP / COMPUTED_CALL references"
  affects := .result

def loadKeys : Registry where
  specs := [loadEntries, loadFlows]
  nodup := by decide
  spelled := by
    intro spec hspec
    obtain rfl | hspec := List.mem_cons.mp hspec
    · exact ⟨by decide, List.all_eq_true.mp (by decide)⟩
    · obtain rfl := List.mem_singleton.mp hspec
      exact ⟨by decide, List.all_eq_true.mp (by decide)⟩
  plain := by
    intro spec hspec
    obtain rfl | hspec := List.mem_cons.mp hspec
    · exact ⟨List.not_mem_nil, nofun⟩
    · obtain rfl := List.mem_singleton.mp hspec
      exact ⟨List.not_mem_nil, nofun⟩

/-- No declarations are refused; the keys above are none. -/
def anyDeclarations : Declarations := ⟨fun _ => .ok (), fun _ => .ok (), fun _ => .ok ()⟩

theorem built_entries (value : Text) :
    Built loadKeys anyDeclarations { values := [("load.entries".toList, trim value)] } := by
  have hset : Options.set loadKeys anyDeclarations {} "load.entries" value =
      .ok { values := [("load.entries".toList, trim value)] } := rfl
  exact .set .new hset

theorem tag_separates_entries :
    Built loadKeys anyDeclarations { values := [("load.entries".toList, "1000".toList)] } ∧
      Separated loadKeys anyDeclarations
        { values := [("load.entries".toList, "1000".toList)] } := by
  refine ⟨built_entries "1000", (tag_separates_iff loadKeys anyDeclarations _
    (built_entries "1000")).mpr ?_⟩
  rintro ⟨u, more, -, -, heq⟩
  have hmem : ';' ∈ u ++ ';' :: join more := List.mem_append_right _ List.mem_cons_self
  rw [← heq] at hmem
  exact absurd hmem (by decide)

/-- The flows as a value of their own and as text of the entries' value. -/
theorem tag_collides :
    ¬ ∀ a b, Built loadKeys anyDeclarations a → Built loadKeys anyDeclarations b →
      a.tag loadKeys = b.tag loadKeys → ∀ key s, loadKeys.find key = some s →
        s.affects = .result → a.get loadKeys key = b.get loadKeys key := by
  intro h
  have hset : Options.set loadKeys anyDeclarations
      { values := [("load.entries".toList, "1".toList)] } "load.flows" "2" =
        .ok { values := [("load.entries".toList, "1".toList), ("load.flows".toList, "2".toList)] } :=
    rfl
  have hflows := Built.set (built_entries "1") hset
  have hget := h _ _ (built_entries "1;load.flows=2") hflows (by decide) "load.flows" loadFlows
    rfl rfl
  exact absurd hget (by decide)

end Options
end Mosura
