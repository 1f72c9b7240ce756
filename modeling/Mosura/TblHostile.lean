import Mosura.TblRoundTrip

/-! Opening an image that may be anything. -/

namespace Mosura
namespace Tbl

open Lib

variable {build : Build}

section Panic

variable {α β : Type}

theorem fail_ne_panicked (e : Error) : (fail e : Result α) ≠ panicked := nofun

theorem ok_ne_panicked (a : α) : (.ok a : Result α) ≠ panicked := nofun

theorem ne_panicked_of_eq {x : Result α} {a : α} (h : x = .ok a) : x ≠ panicked := by
  rw [h]
  exact ok_ne_panicked a

/-- A sequence panics if a step of it does. -/
theorem bind_ne_panicked {x : Result α} {f : α → Result β} (hx : x ≠ panicked)
    (hf : ∀ a, x = .ok a → f a ≠ panicked) : x >>= f ≠ panicked := by
  cases x with
  | ok a => exact hf a rfl
  | error e =>
    intro h
    apply hx
    exact congrArg Except.error (Except.error.inj h)

theorem bind_eq_ok_iff {x : Result α} {f : α → Result β} {y : β} :
    x >>= f = .ok y ↔ ∃ a, x = .ok a ∧ f a = .ok y := by
  cases x with
  | ok a =>
    refine ⟨fun h => ⟨a, rfl, h⟩, ?_⟩
    rintro ⟨a', ha, h⟩
    rwa [Except.ok.inj ha]
  | error e => exact ⟨nofun, fun ⟨_, h, _⟩ => nomatch h⟩

/-- The call does not panic, and what it gives satisfies `P`. -/
structure Returns (P : α → Prop) (x : Result α) : Prop where
  ne_panicked : x ≠ panicked
  value : ∀ a, x = .ok a → P a

theorem Returns.fail {P : α → Prop} (e : Error) : Returns P (fail e) := ⟨nofun, nofun⟩

theorem Returns.ok {P : α → Prop} {a : α} (h : P a) : Returns P (.ok a) :=
  ⟨nofun, fun _ heq => Except.ok.inj heq ▸ h⟩

theorem Returns.bind {P : β → Prop} {x : Result α} {f : α → Result β} (hx : x ≠ panicked)
    (hf : ∀ a, x = .ok a → Returns P (f a)) : Returns P (x >>= f) where
  ne_panicked := bind_ne_panicked hx fun a ha => (hf a ha).ne_panicked
  value b hb := by
    obtain ⟨a, ha, hfa⟩ := bind_eq_ok_iff.mp hb
    exact (hf a ha).value b hfa

end Panic

/-! What a schema block is. -/

/-- The text `s` with its length lies at `at_` and ends at `end_`. -/
structure TextAt (b : Bytes) (at_ : ℕ) (s : String) (end_ : ℕ) : Prop where
  length : at_ + 4 ≤ b.length
  end_eq : end_ = at_ + 4 + u32At b at_
  inside : end_ ≤ b.length
  text : fromUtf8 (field b (at_ + 4) (u32At b at_)) = some s

/-- The records of the columns lie between two offsets. -/
inductive ColumnsAt (b : Bytes) : ℕ → List (String × ColType) → ℕ → Prop
  | nil (at_ : ℕ) : ColumnsAt b at_ [] at_
  | cons {at_ next end_ : ℕ} {s : String} {ty : ColType} {columns : List (String × ColType)} :
    TextAt b at_ s next → next + 5 ≤ b.length → b[next]?.bind ColType.fromU8 = some ty →
      ColumnsAt b (next + 5) columns end_ → ColumnsAt b at_ ((s, ty) :: columns) end_

/-- The fixed header is one, and what it points to begins inside the file. -/
structure Inside (b : Bytes) : Prop where
  length : fixed ≤ b.length
  magic : field b 0 8 = magic
  headerLen : (fixedHeader b).headerLen ≤ b.length
  rowsOff : (fixedHeader b).rowsOff ≤ b.length
  blobOff : (fixedHeader b).blobOff ≤ b.length

/-- The schema block is as the fixed header says. -/
structure Block (b : Bytes) (name : String) (columns : List (String × ColType)) : Prop where
  records : ∃ at_, TextAt b fixed name at_ ∧
    ColumnsAt b at_ columns (fixedHeader b).headerLen
  ncols : columns.length = (fixedHeader b).ncols
  rowSize : (layout (columns.map Prod.snd)).rowSize = (fixedHeader b).rowSize

variable {b : Bytes}

theorem takeStr_eq (at_ : ℕ) :
    takeStr build b at_ =
      if b.length < at_ + 4 then fail (.format "truncated schema block")
      else if b.length < at_ + 4 + u32At b at_ then fail (.format "truncated schema name")
      else
        match fromUtf8 (field b (at_ + 4) (u32At b at_)) with
        | some s => .ok (s, at_ + 4 + u32At b at_)
        | none =>
          fail (.format ("schema name is not UTF-8: " ++
            build.utf8Error (field b (at_ + 4) (u32At b at_)))) := rfl

theorem takeStr_eq_ok_iff {at_ end_ : ℕ} {s : String} :
    takeStr build b at_ = .ok (s, end_) ↔ TextAt b at_ s end_ := by
  rw [takeStr_eq]
  constructor
  · intro h
    split_ifs at h with hlen hend
    · cases h
    · cases h
    · cases htext : fromUtf8 (field b (at_ + 4) (u32At b at_)) with
      | none =>
        rw [htext] at h
        cases h
      | some s' =>
        rw [htext] at h
        obtain ⟨rfl, rfl⟩ := Prod.mk.inj (Except.ok.inj h)
        exact ⟨by omega, rfl, by omega, htext⟩
  · intro h
    have hlen := h.length
    have hend := h.end_eq ▸ h.inside
    rw [if_neg (by omega), if_neg (by omega), h.text, h.end_eq]

theorem takeStr_ne_panicked (at_ : ℕ) : takeStr build b at_ ≠ panicked := by
  rw [takeStr_eq]
  split_ifs
  · exact fail_ne_panicked _
  · exact fail_ne_panicked _
  · split
    · exact ok_ne_panicked _
    · exact fail_ne_panicked _

theorem takeColumns_succ (n at_ : ℕ) :
    takeColumns build b (n + 1) at_ = takeStr build b at_ >>= fun r =>
      if b.length < r.2 + 5 then fail (.format "truncated column record")
      else
        match (b[r.2]?).bind ColType.fromU8 with
        | none =>
          fail (.format ("column " ++ r.1 ++ ": unknown type code " ++
            natText ((b[r.2]?).elim 0 BitVec.toNat)))
        | some ty => takeColumns build b n (r.2 + 5) >>= fun rest =>
          .ok ((r.1, ty) :: rest.1, rest.2) := rfl

/-- The column records are read if and only if they are there. -/
theorem takeColumns_eq_ok_iff {n at_ end_ : ℕ} {columns : List (String × ColType)} :
    takeColumns build b n at_ = .ok (columns, end_) ↔
      ColumnsAt b at_ columns end_ ∧ columns.length = n := by
  induction n generalizing at_ columns with
  | zero =>
    constructor
    · intro h
      obtain ⟨rfl, rfl⟩ := Prod.mk.inj (Except.ok.inj h)
      exact ⟨.nil at_, rfl⟩
    · rintro ⟨h, hlen⟩
      obtain rfl := List.eq_nil_of_length_eq_zero hlen
      cases h
      rfl
  | succ n ih =>
    rw [takeColumns_succ, bind_eq_ok_iff]
    constructor
    · rintro ⟨⟨s, next⟩, hstr, h⟩
      dsimp only at h
      split_ifs at h with hlen
      · cases h
      cases hty : (b[next]?).bind ColType.fromU8 with
      | none =>
        rw [hty] at h
        cases h
      | some ty =>
        rw [hty] at h
        obtain ⟨⟨columns', end'⟩, hrest, heq⟩ := bind_eq_ok_iff.mp h
        obtain ⟨rfl, rfl⟩ := Prod.mk.inj (Except.ok.inj heq)
        obtain ⟨hcolumns, hn⟩ := ih.mp hrest
        exact ⟨.cons (takeStr_eq_ok_iff.mp hstr) (by omega) hty hcolumns, congrArg (· + 1) hn⟩
    · rintro ⟨h, hn⟩
      cases h with
      | nil => exact absurd hn.symm (Nat.succ_ne_zero n)
      | @cons _ next _ s ty columns hstr hlen hty hcolumns =>
        refine ⟨(s, next), takeStr_eq_ok_iff.mpr hstr, ?_⟩
        have hrest := ih.mpr ⟨hcolumns, Nat.succ.inj hn⟩
        dsimp only
        rw [if_neg (by omega), hty]
        dsimp only
        rw [hrest]
        rfl

theorem takeColumns_ne_panicked (n at_ : ℕ) : takeColumns build b n at_ ≠ panicked := by
  induction n generalizing at_ with
  | zero => exact ok_ne_panicked _
  | succ n ih =>
    rw [takeColumns_succ]
    refine bind_ne_panicked (takeStr_ne_panicked at_) fun r _ => ?_
    split_ifs
    · exact fail_ne_panicked _
    · split
      · exact fail_ne_panicked _
      · exact bind_ne_panicked (ih _) fun _ _ => ok_ne_panicked _

/-- A column record takes at least 9 bytes. -/
theorem ColumnsAt.length_le {at_ end_ : ℕ} {columns : List (String × ColType)}
    (h : ColumnsAt b at_ columns end_) : at_ + 9 * columns.length ≤ end_ := by
  induction h with
  | nil at_ => exact le_rfl
  | cons hstr _ _ _ ih =>
    have hend := hstr.end_eq
    rw [List.length_cons]
    omega

theorem u32At_lt (b : Bytes) (at_ : ℕ) : u32At b at_ < 2 ^ 32 := by
  have hlen : (field b at_ 4).length ≤ 4 := List.length_take_le _ _
  calc u32At b at_ < 256 ^ (field b at_ 4).length := fromLe_lt _
    _ ≤ 256 ^ 4 := Nat.pow_le_pow_right (by norm_num) hlen

/-- The header's 4-byte length leaves no room for a row that is too wide. -/
theorem few_columns {at_ : ℕ} {name : String} {columns : List (String × ColType)}
    (hname : TextAt b fixed name at_)
    (hcolumns : ColumnsAt b at_ columns (fixedHeader b).headerLen) :
    8 * (columns.map Prod.snd).length + 8 < 2 ^ 32 := by
  have hlt : (fixedHeader b).headerLen < 2 ^ 32 := u32At_lt b 8
  have hlen := hcolumns.length_le
  have hend := hname.end_eq
  unfold fixed at hend
  rw [List.length_map]
  omega

/-! The header. -/

/-- The sums on attacker-chosen numbers stay in range, each where the reader comes to it, and the
columns announced are no more than the bytes of the file. -/
structure HeaderSums (b : Bytes) : Prop where
  blob : Inside b → (fixedHeader b).blobOff + (fixedHeader b).blobLen < 2 ^ 64
  room : Inside b → (fixedHeader b).blobOff + (fixedHeader b).blobLen ≤ b.length →
    (∃ name at_, TextAt b fixed name at_) → (fixedHeader b).ncols ≤ b.length
  rows : Inside b → (fixedHeader b).blobOff + (fixedHeader b).blobLen ≤ b.length →
    (∃ name columns, Block b name columns) →
      (fixedHeader b).rowsOff + (fixedHeader b).nrows.toNat * (fixedHeader b).rowSize < 2 ^ 64

variable (build) in
/-- The checks come to the sum of the blob's offset and length, or refuse the image. -/
theorem checkedHeader_eq (b : Bytes) :
    (∃ e, checkedHeader build b = fail e ∧ ¬ Inside b) ∨
      (Inside b ∧ checkedHeader build b =
        addUsize build (fixedHeader b).blobOff (fixedHeader b).blobLen >>= fun n =>
          if b.length < n then fail (.format "a .tbl header points outside the file")
          else .ok (fixedHeader b)) := by
  unfold checkedHeader
  by_cases hlen : b.length < fixed
  · exact .inl ⟨_, if_pos hlen, fun h => absurd h.length (Nat.not_le.mpr hlen)⟩
  rw [if_neg hlen]
  by_cases hmagic : field b 0 8 ≠ magic
  · exact .inl ⟨_, if_pos hmagic, fun h => hmagic h.magic⟩
  rw [if_neg hmagic]
  dsimp only
  by_cases hout : b.length < (fixedHeader b).headerLen ∨ b.length < (fixedHeader b).rowsOff ∨
      b.length < (fixedHeader b).blobOff
  · refine .inl ⟨_, if_pos hout, fun h => ?_⟩
    have hheader := h.headerLen
    have hrows := h.rowsOff
    have hblob := h.blobOff
    omega
  · refine .inr ⟨?_, if_neg hout⟩
    exact ⟨by omega, not_not.mp hmagic, by omega, by omega, by omega⟩

theorem checkedHeader_ne_panicked (h : HeaderSums b) : checkedHeader build b ≠ panicked := by
  obtain ⟨e, heq, -⟩ | ⟨hin, heq⟩ := checkedHeader_eq build b
  · rw [heq]
    exact fail_ne_panicked e
  · rw [heq, addUsize_of_lt (h.blob hin)]
    change (if _ then _ else _) ≠ _
    split_ifs
    · exact fail_ne_panicked _
    · exact ok_ne_panicked _

theorem checkedHeader_eq_ok_iff {h : Header}
    (hsum : Inside b → (fixedHeader b).blobOff + (fixedHeader b).blobLen < 2 ^ 64) :
    checkedHeader build b = .ok h ↔ Inside b ∧
      (fixedHeader b).blobOff + (fixedHeader b).blobLen ≤ b.length ∧ h = fixedHeader b := by
  obtain ⟨e, heq, hout⟩ | ⟨hin, heq⟩ := checkedHeader_eq build b
  · rw [heq]
    exact ⟨nofun, fun h => absurd h.1 hout⟩
  · rw [heq, addUsize_of_lt (hsum hin)]
    change (if b.length < _ then _ else _) = _ ↔ _
    split_ifs with hlen
    · exact ⟨nofun, fun h => absurd h.2.1 (Nat.not_le.mpr hlen)⟩
    · exact ⟨fun heq => ⟨hin, Nat.not_lt.mp hlen, (Except.ok.inj heq).symm⟩,
        fun heq => congrArg Except.ok heq.2.2.symm⟩

theorem parseHeader_eq (b : Bytes) :
    parseHeader build b = checkedHeader build b >>= fun h =>
      takeStr build b fixed >>= fun r =>
        takeColumns build b h.ncols r.2 >>= fun rest =>
          if rest.2 ≠ h.headerLen then
            fail (.format ("schema block ends at " ++ natText rest.2 ++ ", header says " ++
              natText h.headerLen))
          else
            checkLayout build (rest.1.map Prod.snd) >>= fun _ =>
              if (layout (rest.1.map Prod.snd)).rowSize ≠ h.rowSize then
                fail (.format ("row size " ++ natText h.rowSize ++ " in the header, " ++
                  natText (layout (rest.1.map Prod.snd)).rowSize ++ " from the column types"))
              else .ok (h, ⟨r.1, h.schemaVersion, rest.1⟩) := rfl

theorem checkLayout_columns {at_ : ℕ} {name : String} {columns : List (String × ColType)}
    (hname : TextAt b fixed name at_)
    (hcolumns : ColumnsAt b at_ columns (fixedHeader b).headerLen) :
    checkLayout build (columns.map Prod.snd) = .ok () :=
  checkLayout_of_length (few_columns hname hcolumns)

/-- What the reader accepts is a header and a schema block, and it accepts every one. -/
theorem parseHeader_eq_ok_iff {h : Header} {own : OwnedSchema}
    (hsum : Inside b → (fixedHeader b).blobOff + (fixedHeader b).blobLen < 2 ^ 64) :
    parseHeader build b = .ok (h, own) ↔ Inside b ∧
      (fixedHeader b).blobOff + (fixedHeader b).blobLen ≤ b.length ∧ h = fixedHeader b ∧
        ∃ name columns, Block b name columns ∧ own = ⟨name, h.schemaVersion, columns⟩ := by
  rw [parseHeader_eq, bind_eq_ok_iff]
  constructor
  · rintro ⟨h', hchecked, heq⟩
    obtain ⟨hin, hblob, rfl⟩ := (checkedHeader_eq_ok_iff hsum).mp hchecked
    obtain ⟨⟨name, at_⟩, hname, heq⟩ := bind_eq_ok_iff.mp heq
    obtain ⟨⟨columns, end_⟩, hcolumns, heq⟩ := bind_eq_ok_iff.mp heq
    dsimp only at heq
    by_cases hend : end_ ≠ (fixedHeader b).headerLen
    · rw [if_pos hend] at heq
      cases heq
    rw [if_neg hend] at heq
    obtain rfl := not_not.mp hend
    obtain ⟨-, -, heq⟩ := bind_eq_ok_iff.mp heq
    by_cases hrow : (layout (columns.map Prod.snd)).rowSize ≠ (fixedHeader b).rowSize
    · rw [if_pos hrow] at heq
      cases heq
    rw [if_neg hrow] at heq
    obtain ⟨rfl, rfl⟩ := Prod.mk.inj (Except.ok.inj heq)
    obtain ⟨hrecords, hncols⟩ := takeColumns_eq_ok_iff.mp hcolumns
    exact ⟨hin, hblob, rfl, name, columns,
      ⟨⟨at_, takeStr_eq_ok_iff.mp hname, hrecords⟩, hncols, not_not.mp hrow⟩, rfl⟩
  · rintro ⟨hin, hblob, rfl, name, columns, ⟨⟨at_, hname, hrecords⟩, hncols, hrow⟩, rfl⟩
    refine ⟨fixedHeader b, (checkedHeader_eq_ok_iff hsum).mpr ⟨hin, hblob, rfl⟩, ?_⟩
    rw [takeStr_eq_ok_iff.mpr hname]
    change (takeColumns build b (fixedHeader b).ncols at_ >>= fun _ => _) = _
    rw [takeColumns_eq_ok_iff.mpr ⟨hrecords, hncols⟩]
    change (if _ then _ else _) = _
    rw [if_neg (not_not_intro rfl), checkLayout_columns hname hrecords]
    exact if_neg (not_not_intro hrow)

theorem parseHeader_ne_panicked (h : HeaderSums b) : parseHeader build b ≠ panicked := by
  rw [parseHeader_eq]
  refine bind_ne_panicked (checkedHeader_ne_panicked h) fun h' hchecked => ?_
  obtain ⟨-, -, rfl⟩ := (checkedHeader_eq_ok_iff h.blob).mp hchecked
  refine bind_ne_panicked (takeStr_ne_panicked _) fun r hname => ?_
  refine bind_ne_panicked (takeColumns_ne_panicked _ _) fun rest hcolumns => ?_
  by_cases hend : rest.2 ≠ (fixedHeader b).headerLen
  · rw [if_pos hend]
    exact fail_ne_panicked _
  rw [if_neg hend]
  obtain ⟨hrecords, -⟩ := takeColumns_eq_ok_iff.mp hcolumns
  rw [not_not.mp hend] at hrecords
  rw [checkLayout_columns (takeStr_eq_ok_iff.mp hname) hrecords]
  refine bind_ne_panicked (ok_ne_panicked ()) fun _ _ => ?_
  split_ifs
  · exact fail_ne_panicked _
  · exact ok_ne_panicked _

/-! The accessors. -/

/-- Where the sums do not overflow, every cell lies between the start of its row and its end. -/
theorem layoutFrom_le {off k : ℕ} {types : List ColType} (h : off ≤ 8 * k)
    (hk : 8 * (k + types.length) + 8 < 2 ^ 32) :
    off ≤ (layoutFrom off types).2 ∧ (layoutFrom off types).2 ≤ 8 * (k + types.length) ∧
      ∀ (c : ℕ) (ty : ColType), types[c]? = some ty →
        ∃ at_, (layoutFrom off types).1[c]? = some at_ ∧
          at_ + ty.cellSize ≤ (layoutFrom off types).2 := by
  induction types generalizing off k with
  | nil => exact ⟨le_rfl, h, nofun⟩
  | cons ty types ih =>
    rw [List.length_cons] at hk ⊢
    have halign := align_le ty
    have hsize := cellSize_le ty
    have hup : off ≤ (off + ty.align - 1) / ty.align * ty.align := by
      cases ty <;> simp only [ColType.align] <;> omega
    have hoff := aligned_le ty h
    have hwrap : wrap32 (off + ty.align - 1) = off + ty.align - 1 := Nat.mod_eq_of_lt (by omega)
    unfold layoutFrom
    rw [hwrap]
    generalize (off + ty.align - 1) / ty.align * ty.align = start at hup hoff ⊢
    have hnext : wrap32 (start + ty.cellSize) = start + ty.cellSize := Nat.mod_eq_of_lt (by omega)
    dsimp only
    rw [hnext]
    have hend : start + ty.cellSize ≤ 8 * (k + 1) := by omega
    obtain ⟨hle, hend, hcells⟩ := ih hend (by omega)
    refine ⟨by omega, by omega, fun c ty' hty => ?_⟩
    cases c with
    | zero =>
      obtain rfl := Option.some.inj hty
      have hmod : start % 2 ^ 16 ≤ start := Nat.mod_le _ _
      exact ⟨start % 2 ^ 16, rfl, by omega⟩
    | succ c => exact hcells c ty' hty

theorem layout_fits {types : List ColType} (h : 8 * types.length + 8 < 2 ^ 32) {c : ℕ}
    {ty : ColType} (hty : types[c]? = some ty) :
    ∃ at_, (layout types).offsets[c]? = some at_ ∧
      at_ + ty.cellSize ≤ (layout types).rowSize := by
  have hbound : 8 * (0 + types.length) + 8 < 2 ^ 32 := by rwa [Nat.zero_add]
  obtain ⟨-, hend, hcells⟩ := layoutFrom_le (Nat.zero_le (8 * 0)) hbound
  obtain ⟨at_, hat, hle⟩ := hcells c ty hty
  refine ⟨at_, hat, hle.trans ?_⟩
  change _ ≤ wrap32 ((layoutFrom 0 types).2 + 7) / 8 * 8
  rw [wrap32, Nat.mod_eq_of_lt (by omega)]
  omega

namespace Table

/-- Every cell of every row lies inside the rows. -/
structure Fits (t : Table build) : Prop where
  length : t.rows.length = t.nrows.toNat * t.rowSize
  lt : t.rows.length < 2 ^ 64
  offset : ∀ c ty, t.schema.colType c = some ty →
    ∃ at_, t.offsets[c]? = some at_ ∧ at_ + ty.cellSize ≤ t.rowSize

/-- No accessor panics on any row and column. -/
structure NoPanic (t : Table build) : Prop where
  u64 : ∀ r c, t.u64 r c ≠ panicked
  i64 : ∀ r c, t.i64 r c ≠ panicked
  f64 : ∀ r c, t.f64 r c ≠ panicked
  bool : ∀ r c, t.bool r c ≠ panicked
  str : ∀ r c, t.str r c ≠ panicked
  bytes : ∀ r c, t.bytes r c ≠ panicked
  listU32 : ∀ r c, t.listU32 r c ≠ panicked
  listU64 : ∀ r c, t.listU64 r c ≠ panicked
  listRaw : ∀ r c, t.listRaw r c ≠ panicked
  column : ∀ c, t.column c ≠ panicked
  find : ∀ c key, t.find c key ≠ panicked

variable {t : Table build}

theorem cell_ne_panicked (h : t.Fits) (r : U64) (c : ℕ) (want : List ColType) :
    t.cell r c want ≠ panicked := by
  unfold cell
  cases hty : t.schema.colType c with
  | none => exact fail_ne_panicked _
  | some ty =>
    obtain ⟨at_, hat, hle⟩ := h.offset c ty hty
    rw [hat]
    dsimp only
    by_cases hwant : ty ∉ want
    · rw [if_pos hwant]
      exact fail_ne_panicked _
    rw [if_neg hwant]
    split_ifs with hrow
    · exact fail_ne_panicked _
    · have hrows := h.length
      have hlt := h.lt
      have hend : (r.toNat + 1) * t.rowSize ≤ t.nrows.toNat * t.rowSize :=
        Nat.mul_le_mul_right _ (by omega)
      have hpos : 0 < ty.cellSize := by cases ty <;> decide
      rw [Nat.succ_mul] at hend
      unfold slice
      rw [Nat.mod_eq_of_lt (by omega), if_pos (by omega)]
      exact ok_ne_panicked _

theorem blobRef_ne_panicked (h : t.Fits) (r : U64) (c : ℕ) (want : List ColType) :
    t.blobRef r c want ≠ panicked := by
  refine bind_ne_panicked (cell_ne_panicked h r c want) fun b _ => ?_
  dsimp only
  split_ifs
  · exact ok_ne_panicked _
  · exact fail_ne_panicked _

theorem u64_ne_panicked (h : t.Fits) (r : U64) (c : ℕ) : t.u64 r c ≠ panicked :=
  bind_ne_panicked (cell_ne_panicked h r c _) fun _ _ => ok_ne_panicked _

theorem column_ne_panicked (h : t.Fits) (c : ℕ) : t.column c ≠ panicked := by
  unfold column
  cases hty : t.schema.colType c with
  | none => exact fail_ne_panicked _
  | some ty =>
    obtain ⟨at_, hat, hle⟩ := h.offset c ty hty
    rw [hat]
    dsimp only
    split_ifs with hvar hempty hoff
    · exact fail_ne_panicked _
    · exact ok_ne_panicked _
    · exact ok_ne_panicked _
    · exfalso
      apply hoff
      have hlen := h.length
      have hrows : t.nrows.toNat ≠ 0 := by
        intro hzero
        rw [hzero, Nat.zero_mul] at hlen
        exact hempty (List.isEmpty_iff_length_eq_zero.mpr hlen)
      have hrow := Nat.le_mul_of_pos_left t.rowSize (Nat.pos_of_ne_zero hrows)
      omega

theorem key?_ne_panicked (h : t.Fits) (c r : ℕ) : t.key? c r ≠ panicked := by
  unfold key?
  have hu64 := u64_ne_panicked h (BitVec.ofNat 64 r) c
  split
  · exact ok_ne_panicked _
  · exact ok_ne_panicked _
  · rename_i heq
    exact absurd heq hu64

theorem findSorted_ne_panicked (h : t.Fits) (c key lo hi : ℕ) :
    t.findSorted c key lo hi ≠ panicked := by
  induction lo, hi using findSorted.induct with
  | case1 lo hi hlt mid ihup ihdown =>
    unfold findSorted
    rw [if_pos hlt]
    refine bind_ne_panicked (key?_ne_panicked h c _) fun v _ => ?_
    cases v with
    | none => exact ok_ne_panicked _
    | some v =>
      dsimp only
      split_ifs
      · exact ihup
      · exact ihdown
      · exact ok_ne_panicked _
  | case2 lo hi hlt =>
    unfold findSorted
    rw [if_neg hlt]
    exact ok_ne_panicked _

theorem findFrom_ne_panicked (h : t.Fits) (c key r n : ℕ) :
    t.findFrom c key r n ≠ panicked := by
  induction n generalizing r with
  | zero => exact ok_ne_panicked _
  | succ n ih =>
    refine bind_ne_panicked (key?_ne_panicked h c r) fun v _ => ?_
    split_ifs
    · exact ok_ne_panicked _
    · exact ih (r + 1)

theorem noPanic (h : t.Fits) : t.NoPanic where
  u64 := u64_ne_panicked h
  i64 r c := bind_ne_panicked (cell_ne_panicked h r c _) fun _ _ => ok_ne_panicked _
  f64 r c := bind_ne_panicked (cell_ne_panicked h r c _) fun _ _ => ok_ne_panicked _
  bool r c := bind_ne_panicked (cell_ne_panicked h r c _) fun _ _ => ok_ne_panicked _
  str r c := by
    refine bind_ne_panicked (blobRef_ne_panicked h r c _) fun b _ => ?_
    cases fromUtf8 b with
    | none => exact fail_ne_panicked _
    | some s => exact ok_ne_panicked _
  bytes r c := blobRef_ne_panicked h r c _
  listU32 r c := bind_ne_panicked (blobRef_ne_panicked h r c _) fun _ _ => ok_ne_panicked _
  listU64 r c := bind_ne_panicked (blobRef_ne_panicked h r c _) fun _ _ => ok_ne_panicked _
  listRaw r c := by
    unfold listRaw
    cases t.schema.colType c with
    | none => exact fail_ne_panicked _
    | some ty => exact bind_ne_panicked (blobRef_ne_panicked h r c _) fun _ _ => ok_ne_panicked _
  column := column_ne_panicked h
  find c key := by
    unfold find
    split_ifs
    · exact findSorted_ne_panicked h c key 0 _
    · exact findFrom_ne_panicked h c key 0 _

end Table

/-! The whole image. -/

/-- What is asked of opening an image: it returns, with room made for no more columns than the file
has bytes, and no accessor of the table panics. -/
structure OpensSafely (build : Build) (b : Bytes) (known : Option Schema) (verify : Bool) :
    Prop where
  returns : (openOwned build b known verify : Result (Table build)) ≠ panicked
  room : ∀ n, columnCapacity build b = .ok n → n ≤ b.length
  cells : ∀ t : Table build, openOwned build b known verify = .ok t → t.NoPanic

theorem mulUsize_of_lt {m n : ℕ} (h : m * n < 2 ^ 64) : mulUsize build m n = .ok (m * n) := if_pos h

/-- A schema the reader resolves has the file's columns. -/
theorem resolveSchema_columns {own : OwnedSchema} {known : Option Schema} {schema : SchemaRef}
    (h : resolveSchema own known = .ok schema) : schema.columns = own.columns := by
  cases known with
  | none => rw [← Except.ok.inj h]; rfl
  | some s =>
    simp only [resolveSchema] at h
    split_ifs at h with hversion hcolumns
    · cases h
    · cases h
    · rw [← Except.ok.inj h]
      exact not_not.mp hcolumns

theorem resolveSchema_ne_panicked (own : OwnedSchema) (known : Option Schema) :
    resolveSchema own known ≠ panicked := by
  cases known with
  | none => exact ok_ne_panicked _
  | some s =>
    simp only [resolveSchema]
    split_ifs
    · exact fail_ne_panicked _
    · exact fail_ne_panicked _
    · exact ok_ne_panicked _

theorem checkDigest_ne_panicked (h : Header) (rows blob : Bytes) :
    checkDigest build h rows blob ≠ panicked := by
  unfold checkDigest
  split_ifs
  · exact ok_ne_panicked _
  · exact fail_ne_panicked _

theorem openOwned_eq (b : Bytes) (known : Option Schema) (verify : Bool) :
    (openOwned build b known verify : Result (Table build)) =
      parseHeader build b >>= fun r => mulUsize build r.1.nrows.toNat r.1.rowSize >>= fun rowsLen =>
        addUsize build r.1.rowsOff rowsLen >>= fun end_ =>
          if b.length < end_ then fail (.format "rows extend past the end of the file")
          else
            Table.slice b r.1.rowsOff rowsLen >>= fun rows =>
              Table.slice b r.1.blobOff r.1.blobLen >>= fun blob =>
                (if verify then checkDigest build r.1 rows blob else .ok ()) >>= fun _ =>
                  resolveSchema r.2 known >>= fun schema =>
                    assemble schema r.1.nrows rows blob r.1.sorted := by
  cases verify <;> rfl

theorem slice_eq {bs : Bytes} {start n : ℕ} (h : start + n ≤ bs.length) :
    Table.slice bs start n = .ok (field bs start n) := if_pos h

/-- A table is assembled with cells that lie inside its rows. -/
theorem assemble_returns {schema : SchemaRef} {nrows : U64} {rows : Bytes} (blob : Bytes)
    (sorted : Bool) (hcolumns : 8 * schema.types.length + 8 < 2 ^ 32)
    (hlt : nrows.toNat * (layout schema.types).rowSize < 2 ^ 64)
    (hrows : rows.length = nrows.toNat * (layout schema.types).rowSize) :
    Returns Table.Fits (assemble schema nrows rows blob sorted : Result (Table build)) := by
  unfold assemble
  refine .bind (ne_panicked_of_eq (checkLayout_of_length hcolumns)) fun _ _ => ?_
  rw [dif_pos (by rw [hrows, mulUsize_of_lt hlt])]
  refine .ok ⟨hrows, hrows.trans_lt hlt, fun c ty hty => layout_fits hcolumns ?_⟩
  rw [SchemaRef.types, List.getElem?_map]
  exact hty

/-- Where the sums stay in range an image is refused or gives a table whose cells are inside it. -/
theorem openOwned_returns (h : HeaderSums b) (known : Option Schema) (verify : Bool) :
    Returns Table.Fits (openOwned build b known verify : Result (Table build)) := by
  rw [openOwned_eq]
  refine .bind (parseHeader_ne_panicked h) fun ⟨h', own⟩ hparse => ?_
  obtain ⟨hin, hblob, rfl, name, columns, hblock, rfl⟩ := (parseHeader_eq_ok_iff h.blob).mp hparse
  have hsum := h.rows hin hblob ⟨name, columns, hblock⟩
  have hlt : (fixedHeader b).nrows.toNat * (fixedHeader b).rowSize < 2 ^ 64 := by omega
  refine .bind (ne_panicked_of_eq (mulUsize_of_lt hlt)) fun rowsLen hmul => ?_
  obtain rfl := Except.ok.inj ((mulUsize_of_lt hlt).symm.trans hmul)
  refine .bind (ne_panicked_of_eq (addUsize_of_lt hsum)) fun end_ hadd => ?_
  obtain rfl := Except.ok.inj ((addUsize_of_lt hsum).symm.trans hadd)
  by_cases hend : b.length <
      (fixedHeader b).rowsOff + (fixedHeader b).nrows.toNat * (fixedHeader b).rowSize
  · rw [if_pos hend]
    exact .fail _
  rw [if_neg hend]
  have hrows := Nat.not_lt.mp hend
  refine .bind (ne_panicked_of_eq (slice_eq hrows)) fun rows hrowsEq => ?_
  obtain rfl := Except.ok.inj ((slice_eq hrows).symm.trans hrowsEq)
  refine .bind (ne_panicked_of_eq (slice_eq hblob)) fun blob _ => ?_
  refine .bind ?_ fun _ _ => .bind (resolveSchema_ne_panicked _ known) fun schema hschema => ?_
  · split_ifs
    · exact checkDigest_ne_panicked _ _ _
    · exact ok_ne_panicked ()
  · have htypes : schema.types = columns.map Prod.snd :=
      congrArg (List.map Prod.snd) (resolveSchema_columns hschema)
    obtain ⟨at_, hname, hrecords⟩ := hblock.records
    refine assemble_returns blob _ ?_ ?_ ?_
    · rw [htypes]
      exact few_columns hname hrecords
    · rwa [htypes, hblock.rowSize]
    · rw [htypes, hblock.rowSize, field_of_le hrows]

/-- Room is made for the columns once the fixed header and the name are read. -/
theorem columnCapacity_eq_ok_iff {n : ℕ}
    (hsum : Inside b → (fixedHeader b).blobOff + (fixedHeader b).blobLen < 2 ^ 64) :
    columnCapacity build b = .ok n ↔ Inside b ∧
      (fixedHeader b).blobOff + (fixedHeader b).blobLen ≤ b.length ∧
        (∃ name at_, TextAt b fixed name at_) ∧ n = (fixedHeader b).ncols := by
  unfold columnCapacity
  rw [bind_eq_ok_iff]
  constructor
  · rintro ⟨h, hchecked, hn⟩
    obtain ⟨hin, hblob, rfl⟩ := (checkedHeader_eq_ok_iff hsum).mp hchecked
    obtain ⟨⟨name, at_⟩, hname, heq⟩ := bind_eq_ok_iff.mp hn
    exact ⟨hin, hblob, ⟨name, at_, takeStr_eq_ok_iff.mp hname⟩, (Except.ok.inj heq).symm⟩
  · rintro ⟨hin, hblob, ⟨name, at_, hname⟩, rfl⟩
    refine ⟨fixedHeader b, (checkedHeader_eq_ok_iff hsum).mpr ⟨hin, hblob, rfl⟩, ?_⟩
    rw [takeStr_eq_ok_iff.mpr hname]
    rfl

theorem opensSafely (h : HeaderSums b) (known : Option Schema) (verify : Bool) :
    OpensSafely build b known verify where
  returns := (openOwned_returns h known verify).ne_panicked
  room n hn := by
    obtain ⟨hin, hblob, hname, rfl⟩ := (columnCapacity_eq_ok_iff h.blob).mp hn
    exact h.room hin hblob hname
  cells t ht := Table.noPanic ((openOwned_returns h known verify).value t ht)

/-- A sum that overflows is a panic of a build that checks. -/
theorem addUsize_checks {m n : ℕ} (hchecks : build.checks = true) (h : ¬ m + n < 2 ^ 64) :
    addUsize build m n = panicked := by
  unfold addUsize
  rw [if_neg h, if_pos hchecks]

theorem mulUsize_checks {m n : ℕ} (hchecks : build.checks = true) (h : ¬ m * n < 2 ^ 64) :
    mulUsize build m n = panicked := by
  unfold mulUsize
  rw [if_neg h, if_pos hchecks]

/-- In a build that checks overflow only such an image opens safely. -/
theorem headerSums (hchecks : build.checks = true) (h : OpensSafely build b none false) :
    HeaderSums b := by
  have hblob : Inside b → (fixedHeader b).blobOff + (fixedHeader b).blobLen < 2 ^ 64 := by
    intro hin
    by_contra hsum
    obtain ⟨_, _, hout⟩ | ⟨-, hchecked⟩ := checkedHeader_eq build b
    · exact hout hin
    · rw [addUsize_checks hchecks hsum] at hchecked
      apply h.returns
      rw [openOwned_eq, parseHeader_eq, hchecked]
      rfl
  refine ⟨hblob, ?_, ?_⟩
  · intro hin hlen hname
    exact h.room _ ((columnCapacity_eq_ok_iff hblob).mpr ⟨hin, hlen, hname, rfl⟩)
  · rintro hin hlen ⟨name, columns, hblock⟩
    by_contra hsum
    have hparse : parseHeader build b =
        .ok (fixedHeader b, ⟨name, (fixedHeader b).schemaVersion, columns⟩) :=
      (parseHeader_eq_ok_iff hblob).mpr ⟨hin, hlen, rfl, name, columns, hblock, rfl⟩
    apply h.returns
    rw [openOwned_eq, hparse]
    change (mulUsize build (fixedHeader b).nrows.toNat (fixedHeader b).rowSize >>= fun _ => _) = _
    by_cases hmul : (fixedHeader b).nrows.toNat * (fixedHeader b).rowSize < 2 ^ 64
    · rw [mulUsize_of_lt hmul]
      change (addUsize build (fixedHeader b).rowsOff _ >>= fun _ => _) = _
      rw [addUsize_checks hchecks hsum]
      rfl
    · rw [mulUsize_checks hchecks hmul]
      rfl

/-- In every build, for every known schema and with the digest checked or not, opening an image
neither panics nor makes unbounded room, and the accessors of the table do not panic, if and only if
the sums on the numbers of its header stay in range. -/
theorem openOwned_safe_iff (build : Build) (b : Bytes) :
    (∀ checks known verify, OpensSafely { build with checks := checks } b known verify) ↔
      HeaderSums b :=
  ⟨fun h => headerSums rfl (h true none false), fun h _ known verify => opensSafely h known verify⟩

/-- An image of no row and no blob but what the header says, with a schema block. -/
def hostile (ncols rowSize nrows blobOff blobLen : ℕ) (block : Bytes) : Bytes :=
  magic ++ toLe 4 (96 + block.length) ++ toLe 4 0 ++ toLe 4 ncols ++ toLe 4 rowSize ++ toLe 4 0 ++
    toLe 4 0 ++ toLe 8 nrows ++ toLe 8 0 ++ toLe 8 blobOff ++ toLe 8 blobLen ++ zeros 32 ++ block

/-- An empty name. -/
def emptyName : Bytes := toLe 4 0

/-- One column of type `u64`, with an empty name. -/
def wordColumn : Bytes := toLe 4 0 ++ [4, 0, 0, 8, 0]

/-- The end of the blob overflows. -/
def blobImage : Bytes := hostile 0 0 0 8 (2 ^ 64 - 8) emptyName

/-- 2^32 - 1 columns are announced. -/
def columnsImage : Bytes := hostile (2 ^ 32 - 1) 0 0 0 0 emptyName

/-- The size of 2^61 rows of 8 bytes overflows. -/
def rowsImage : Bytes := hostile 1 8 (2 ^ 61) 0 0 (emptyName ++ wordColumn)

theorem emptyText {b : Bytes} {at_ : ℕ} (hlen : at_ + 4 ≤ b.length) (h : u32At b at_ = 0) :
    TextAt b at_ "" (at_ + 4) where
  length := hlen
  end_eq := by rw [h]
  inside := hlen
  text := by
    rw [h]
    exact fromUtf8_asBytes ""

theorem blobImage_panics (checks : Bool) :
    (openOwned { sampleBuild with checks := checks } blobImage none false : Result (Table _)) =
      panicked := by
  rw [openOwned_eq, parseHeader_eq]
  cases checks with
  | true => rfl
  | false =>
    have hname : takeStr { sampleBuild with checks := false } blobImage fixed = .ok ("", 100) :=
      takeStr_eq_ok_iff.mpr (emptyText (by decide) (by decide))
    change (takeStr { sampleBuild with checks := false } blobImage fixed >>= fun _ => _) >>=
      (fun _ => _) = _
    rw [hname]
    rfl

/-- The header of the image of 2^61 rows parses. -/
theorem parseHeader_rowsImage :
    parseHeader build rowsImage = .ok (fixedHeader rowsImage, ⟨"", 0, [("", .u64)]⟩) := by
  have hin : Inside rowsImage := ⟨by decide, by decide, by decide, by decide, by decide⟩
  have hname : TextAt rowsImage fixed "" 100 := emptyText (by decide) (by decide)
  have hcolumn : TextAt rowsImage 100 "" 104 := emptyText (by decide) (by decide)
  refine (parseHeader_eq_ok_iff fun _ => by decide).mpr ⟨hin, by decide, rfl, "", _, ?_, rfl⟩
  exact ⟨⟨100, hname, .cons hcolumn (by decide) rfl (.nil 109)⟩, rfl, rfl⟩

/-- An image of 100 bytes panics in every build, another announces 4294967295 columns, and one of
109 bytes panics where overflow is checked and elsewhere opens to a table that panics when its first
cell is read. -/
theorem openOwned_hostile :
    (∀ checks, (openOwned { sampleBuild with checks := checks } blobImage none false :
      Result (Table _)) = panicked) ∧
    columnsImage.length = 100 ∧ columnCapacity sampleBuild columnsImage = .ok 4294967295 ∧
    (openOwned sampleBuild rowsImage none false : Result (Table _)) = panicked ∧
    ∃ t : Table { sampleBuild with checks := false },
      openOwned { sampleBuild with checks := false } rowsImage none false = .ok t ∧
        t.u64 0 0 = panicked := by
  refine ⟨blobImage_panics, rfl, ?_, ?_, ?_⟩
  · refine (columnCapacity_eq_ok_iff fun _ => by decide).mpr ⟨?_, by decide, ?_, by decide⟩
    · exact ⟨by decide, by decide, by decide, by decide, by decide⟩
    · exact ⟨"", _, emptyText (by decide) (by decide)⟩
  · rw [openOwned_eq, parseHeader_rowsImage]
    rfl
  · rw [openOwned_eq, parseHeader_rowsImage]
    exact ⟨_, rfl, rfl⟩

end Tbl
end Mosura
