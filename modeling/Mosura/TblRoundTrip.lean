import Mosura.Tbl

/-! A written table opens to the same table. -/

namespace Mosura
namespace Tbl

open Lib

variable {build : Build}

/-- A text is read back from its bytes. -/
theorem fromUtf8_asBytes (s : String) : fromUtf8 (asBytes s) = some s := by
  have hmap : (asBytes s).map UInt8.ofBitVec = s.toByteArray.data.toList := by
    unfold asBytes
    rw [List.map_map]
    exact List.map_id _
  unfold fromUtf8
  rw [hmap]
  exact dif_pos s.isValidUTF8

section Layout

theorem length_layoutFrom (off : ℕ) (types : List ColType) :
    (layoutFrom off types).1.length = types.length := by
  induction types generalizing off with
  | nil => rfl
  | cons ty types ih => exact congrArg (· + 1) (ih _)

/-- Every column has an offset. -/
theorem length_offsets (types : List ColType) : (layout types).offsets.length = types.length :=
  length_layoutFrom 0 types

/-- The row size is a `u32`. -/
theorem rowSize_lt (types : List ColType) : (layout types).rowSize < 2 ^ 32 := by
  have h : wrap32 ((layoutFrom 0 types).2 + 7) < 2 ^ 32 := Nat.mod_lt _ (Nat.two_pow_pos 32)
  exact (Nat.div_mul_le_self _ _).trans_lt h

/-- Alignment does not move past a multiple of 8. -/
theorem aligned_le (ty : ColType) {off k : ℕ} (h : off ≤ 8 * k) :
    (off + ty.align - 1) / ty.align * ty.align ≤ 8 * k := by
  cases ty <;> simp only [ColType.align] <;> omega

theorem cellSize_le (ty : ColType) : ty.cellSize ≤ 8 := by cases ty <;> decide

theorem align_le (ty : ColType) : ty.align ≤ 8 := by cases ty <;> decide

/-- A row takes 8 bytes a column at most, so that few columns do not overflow it. -/
theorem layoutFits_of_le {off k : ℕ} {types : List ColType} (h : off ≤ 8 * k)
    (hk : 8 * (k + types.length) + 8 < 2 ^ 32) : layoutFits off types = true := by
  induction types generalizing off k with
  | nil =>
    rw [List.length_nil] at hk
    exact decide_eq_true (by omega)
  | cons ty types ih =>
    rw [List.length_cons] at hk
    have halign := align_le ty
    have hsize := cellSize_le ty
    have hoff := aligned_le ty h
    unfold layoutFits
    rw [Bool.and_eq_true, Bool.and_eq_true]
    refine ⟨decide_eq_true (by omega), decide_eq_true (by omega), ih (k := k + 1) ?_ ?_⟩
    · omega
    · omega

theorem checkLayout_of_length {types : List ColType} (h : 8 * types.length + 8 < 2 ^ 32) :
    checkLayout build types = .ok () := by
  unfold checkLayout
  rw [layoutFits_of_le (k := 0) (Nat.zero_le _) (by omega), Bool.not_true, Bool.and_false]
  rfl

end Layout

section SchemaBlock

theorem length_encodeStr (s : String) : (encodeStr s).length = 4 + (asBytes s).length := by
  unfold encodeStr
  rw [List.length_append, length_toLe]

theorem length_encodeColumn (p : (String × ColType) × ℕ) :
    (encodeColumn p).length = 4 + (asBytes p.1.1).length + 5 := by
  unfold encodeColumn
  rw [List.length_append, length_encodeStr, List.length_cons, List.length_append, length_toLe,
    length_toLe]

/-- The number at an offset of an image. -/
theorem u32At_append {pre post : Bytes} {n : ℕ} (hn : n < 2 ^ 32) :
    u32At (pre ++ (toLe 4 n ++ post)) pre.length = n := by
  unfold u32At
  rw [field_append rfl (length_toLe 4 n)]
  exact fromLe_toLe_of_lt hn

/-- A text of less than 4 GiB is taken back as it was put. -/
theorem takeStr_encodeStr (pre post : Bytes) {s : String} (hs : (asBytes s).length < 2 ^ 32) :
    takeStr build (pre ++ (encodeStr s ++ post)) pre.length =
      .ok (s, pre.length + (encodeStr s).length) := by
  have hb : pre ++ (encodeStr s ++ post) = pre ++ (toLe 4 (asBytes s).length ++
      (asBytes s ++ post)) := by
    unfold encodeStr
    rw [List.append_assoc]
  have hlen : (pre ++ (toLe 4 (asBytes s).length ++ (asBytes s ++ post))).length =
      pre.length + 4 + (asBytes s).length + post.length := by
    simp only [List.length_append, length_toLe]
    omega
  have hfield : field (pre ++ (toLe 4 (asBytes s).length ++ (asBytes s ++ post)))
      (pre.length + 4) (asBytes s).length = asBytes s := by
    rw [← List.append_assoc]
    exact field_append (by rw [List.length_append, length_toLe]) rfl
  unfold takeStr
  rw [hb, u32At_append hs, hlen, if_neg (by omega), if_neg (by omega), hfield, fromUtf8_asBytes,
    length_encodeStr, Nat.add_assoc]

/-- The columns are taken back as they were put. -/
theorem takeColumns_encode (pre post : Bytes) {columns : List (String × ColType)} {offsets : List ℕ}
    (hoff : offsets.length = columns.length)
    (hs : ∀ p ∈ columns, (asBytes p.1).length < 2 ^ 32) :
    takeColumns build (pre ++ ((columns.zip offsets).flatMap encodeColumn ++ post)) columns.length
        pre.length =
      .ok (columns, pre.length + ((columns.zip offsets).flatMap encodeColumn).length) := by
  induction columns generalizing pre offsets with
  | nil => rfl
  | cons p columns ih =>
    cases offsets with
    | nil => exact absurd hoff (Nat.succ_ne_zero _).symm
    | cons off offsets =>
      let rest := (columns.zip offsets).flatMap encodeColumn
      let record := p.2.code :: (toLe 2 off ++ toLe 2 p.2.cellSize)
      have hrest : ((p :: columns).zip (off :: offsets)).flatMap encodeColumn =
          encodeStr p.1 ++ (record ++ rest) := List.append_assoc _ _ _
      have hrecord : record.length = 5 := rfl
      have hb : pre ++ (((p :: columns).zip (off :: offsets)).flatMap encodeColumn ++ post) =
          pre ++ (encodeStr p.1 ++ (record ++ (rest ++ post))) := by
        rw [hrest]
        simp only [List.append_assoc]
      have hb' : pre ++ (encodeStr p.1 ++ (record ++ (rest ++ post))) =
          pre ++ (encodeStr p.1 ++ record) ++ (rest ++ post) := by
        simp only [List.append_assoc]
      have hlen : ((pre ++ (encodeStr p.1 ++ (record ++ (rest ++ post)))).length) =
          pre.length + (encodeStr p.1).length + 5 + (rest ++ post).length := by
        simp only [List.length_append, hrecord]
        omega
      have hcode : (pre ++ (encodeStr p.1 ++ (record ++ (rest ++ post))))[pre.length +
          (encodeStr p.1).length]? = some p.2.code := by
        rw [← List.append_assoc, ← List.length_append]
        exact (List.getElem?_append_right le_rfl).trans (by rw [Nat.sub_self]; rfl)
      have hrestOk := ih (pre ++ (encodeStr p.1 ++ record)) (Nat.succ.inj hoff)
        fun q hq => hs q (List.mem_cons_of_mem _ hq)
      rw [hb, List.length_cons]
      unfold takeColumns
      rw [takeStr_encodeStr pre _ (hs p List.mem_cons_self)]
      change (if _ then _ else _) = _
      rw [if_neg (by omega), hcode, Option.bind_some, ColType.fromU8_code]
      change ((takeColumns build _ columns.length _) >>= fun r => _) = _
      rw [hb', show pre.length + (encodeStr p.1).length + 5 =
        (pre ++ (encodeStr p.1 ++ record)).length by
          simp only [List.length_append, hrecord]
          omega, hrestOk, hrest]
      have hend : (pre ++ (encodeStr p.1 ++ record)).length + rest.length =
          pre.length + (encodeStr p.1 ++ (record ++ rest)).length := by
        simp only [List.length_append]
        omega
      exact congrArg (fun at_ => Except.ok (p :: columns, at_)) hend

/-- The texts and the column count of a schema fit their 4-byte fields. -/
structure Short (schema : SchemaRef) : Prop where
  name : (asBytes schema.name).length < 2 ^ 32
  columns : schema.columns.length < 2 ^ 32
  column : ∀ p ∈ schema.columns, (asBytes p.1).length < 2 ^ 32

theorem length_columns_le (l : List ((String × ColType) × ℕ)) :
    9 * l.length ≤ (l.flatMap encodeColumn).length := by
  induction l with
  | nil => exact Nat.le_refl 0
  | cons p l ih =>
    rw [List.flatMap_cons, List.length_append, length_encodeColumn, List.length_cons]
    omega

theorem length_column_le {l : List ((String × ColType) × ℕ)} {p} (hp : p ∈ l) :
    (asBytes p.1.1).length ≤ (l.flatMap encodeColumn).length := by
  obtain ⟨l₁, l₂, rfl⟩ := List.append_of_mem hp
  rw [List.flatMap_append, List.flatMap_cons, List.length_append, List.length_append,
    length_encodeColumn]
  omega

theorem length_offsets_eq (schema : SchemaRef) :
    (layout schema.types).offsets.length = schema.columns.length :=
  (length_offsets _).trans (List.length_map _)

theorem length_schemaBlock (schema : SchemaRef) :
    (schemaBlock schema).length = 4 + (asBytes schema.name).length +
      ((schema.columns.zip (layout schema.types).offsets).flatMap encodeColumn).length := by
  unfold schemaBlock
  rw [List.length_append, length_encodeStr]

/-- Every column takes at least 9 bytes of the header. -/
theorem columns_le_headerLen (schema : SchemaRef) :
    fixed + 4 + (asBytes schema.name).length + 9 * schema.columns.length ≤ headerLen schema := by
  have hoff := length_offsets_eq schema
  have hzip : (schema.columns.zip (layout schema.types).offsets).length = schema.columns.length := by
    rw [List.length_zip, hoff, Nat.min_self]
  have hblock := length_schemaBlock schema
  have hcols := length_columns_le (schema.columns.zip (layout schema.types).offsets)
  unfold headerLen
  omega

/-- The layout of a schema whose header is shorter than 4 GiB does not overflow. -/
theorem checkLayout_schema {schema : SchemaRef} (h : headerLen schema < 2 ^ 32) :
    checkLayout build schema.types = .ok () := by
  have hcols := columns_le_headerLen schema
  refine checkLayout_of_length ?_
  rw [SchemaRef.types, List.length_map]
  unfold fixed at hcols
  omega

/-- A schema block of less than 4 GiB holds nothing longer. -/
theorem short_of_headerLen {schema : SchemaRef} (h : headerLen schema < 2 ^ 32) : Short schema := by
  have hoff := length_offsets_eq schema
  have hcols := columns_le_headerLen schema
  have hblock := length_schemaBlock schema
  refine ⟨by omega, by omega, fun p hp => ?_⟩
  unfold headerLen at h
  have hmap := (List.map_fst_zip hoff.ge).symm ▸ hp
  obtain ⟨q, hq, rfl⟩ := List.mem_map.mp hmap
  have := length_column_le hq
  omega

end SchemaBlock

section Header

variable (t : Table build)

theorem rowSize_lt_of : t.rowSize < 2 ^ 32 := by
  have h := rowSize_lt t.schema.types
  rw [t.layout_eq] at h
  exact h

theorem length_fixedBytes : (fixedBytes t).length = fixed := by
  unfold fixedBytes
  simp only [List.length_append, length_toLe, t.digest.2]
  rfl

theorem field_toLe_append (width n : ℕ) (post : Bytes) :
    field (toLe width n ++ post) 0 width = toLe width n := field_left (length_toLe width n)

theorem field_past_toLe {width at_ : ℕ} (h : width ≤ at_) (n len : ℕ) (post : Bytes) :
    field (toLe width n ++ post) at_ len = field post (at_ - width) len := by
  rw [field_right ((length_toLe width n).trans_le h), length_toLe]

theorem field_past_magic {at_ : ℕ} (h : 8 ≤ at_) (len : ℕ) (post : Bytes) :
    field (magic ++ post) at_ len = field post (at_ - 8) len := field_right h

/-- What the reader finds in the fixed header. -/
theorem fixedHeader_image :
    fixedHeader (image t) =
      { headerLen := headerLen t.schema % 256 ^ 4
        schemaVersion := t.schema.version
        ncols := t.schema.columns.length % 256 ^ 4
        rowSize := t.rowSize
        sorted := t.sorted
        nrows := t.nrows
        rowsOff := rowsOff t % 256 ^ 8
        blobOff := blobOff t % 256 ^ 8
        blobLen := t.blob.length % 256 ^ 8
        digest := t.digest.1 } := by
  unfold fixedHeader u32At u64At image fixedBytes
  simp (disch := decide) only [List.append_assoc, field_past_magic, field_past_toLe, Nat.reduceSub,
    field_toLe_append, fromLe_toLe]
  have hversion : BitVec.ofNat 32 (t.schema.version.toNat % 256 ^ 4) = t.schema.version := by
    rw [Nat.mod_eq_of_lt (show _ < 256 ^ 4 from t.schema.version.isLt)]
    exact (BitVec.ofNat_toNat 32 _).trans (BitVec.setWidth_eq _)
  have hnrows : BitVec.ofNat 64 (t.nrows.toNat % 256 ^ 8) = t.nrows := by
    rw [Nat.mod_eq_of_lt (show _ < 256 ^ 8 from t.nrows.isLt)]
    exact (BitVec.ofNat_toNat 64 _).trans (BitVec.setWidth_eq _)
  have hrow : t.rowSize % 256 ^ 4 = t.rowSize := Nat.mod_eq_of_lt (rowSize_lt_of t)
  have hsorted : (t.sorted.toNat % 256 ^ 4).testBit 0 = t.sorted := by cases t.sorted <;> rfl
  have hdigest : field (t.digest.1 ++ (schemaBlock t.schema ++
      (zeros (rowsOff t - headerLen t.schema) ++ (t.rows ++
        (zeros (blobOff t - (rowsOff t + t.rows.length)) ++ t.blob))))) 0 32 = t.digest.1 :=
    field_left t.digest.2
  rw [hversion, hnrows, hrow, hsorted, hdigest]

theorem headerLen_le_rowsOff : headerLen t.schema ≤ rowsOff t := le_align8 _

theorem rows_end_le_blobOff : rowsOff t + t.rows.length ≤ blobOff t := le_align8 _

theorem length_image : (image t).length = blobOff t + t.blob.length := by
  have h₁ := headerLen_le_rowsOff t
  have h₂ := rows_end_le_blobOff t
  unfold image
  simp only [List.length_append, length_fixedBytes, zeros, List.length_replicate]
  unfold headerLen at h₁ ⊢
  omega

/-- The rows are where the header says. -/
theorem field_rows : field (image t) (rowsOff t) t.rows.length = t.rows := by
  have h := headerLen_le_rowsOff t
  have hb : image t = fixedBytes t ++ schemaBlock t.schema ++
      zeros (rowsOff t - headerLen t.schema) ++ (t.rows ++
        (zeros (blobOff t - (rowsOff t + t.rows.length)) ++ t.blob)) := by
    unfold image
    simp only [List.append_assoc]
  rw [hb]
  refine field_append ?_ rfl
  simp only [List.length_append, length_fixedBytes, zeros, List.length_replicate]
  unfold headerLen at h ⊢
  omega

/-- The blob is where the header says. -/
theorem field_blob : field (image t) (blobOff t) t.blob.length = t.blob := by
  have h₁ := headerLen_le_rowsOff t
  have h₂ := rows_end_le_blobOff t
  have hb : image t = fixedBytes t ++ schemaBlock t.schema ++
      zeros (rowsOff t - headerLen t.schema) ++ t.rows ++
        zeros (blobOff t - (rowsOff t + t.rows.length)) ++ (t.blob ++ []) := by
    unfold image
    simp only [List.append_assoc, List.append_nil]
  rw [hb]
  refine field_append ?_ rfl
  simp only [List.length_append, length_fixedBytes, zeros, List.length_replicate]
  unfold headerLen at h₁ ⊢
  omega

/-- Nothing in the header is cut but, perhaps, the length of the header itself. -/
theorem fixedHeader_image_of_short {t : Table build} (hs : Short t.schema)
    (hlen : (image t).length < 2 ^ 63) :
    fixedHeader (image t) =
      { headerLen := headerLen t.schema % 256 ^ 4
        schemaVersion := t.schema.version
        ncols := t.schema.columns.length
        rowSize := t.rowSize
        sorted := t.sorted
        nrows := t.nrows
        rowsOff := rowsOff t
        blobOff := blobOff t
        blobLen := t.blob.length
        digest := t.digest.1 } := by
  have himage := length_image t
  have hrows := rows_end_le_blobOff t
  have hh := fixedHeader_image t
  rw [Nat.mod_eq_of_lt (show t.schema.columns.length < 256 ^ 4 from hs.columns),
    Nat.mod_eq_of_lt (show rowsOff t < 256 ^ 8 by omega),
    Nat.mod_eq_of_lt (show blobOff t < 256 ^ 8 by omega),
    Nat.mod_eq_of_lt (show t.blob.length < 256 ^ 8 by omega)] at hh
  exact hh

theorem addUsize_of_lt {a b : ℕ} (h : a + b < 2 ^ 64) : addUsize build a b = .ok (a + b) :=
  if_pos h

/-- The header of an image whose texts fit parses, unless its length was cut to 4 bytes. -/
theorem parseHeader_image (hs : Short t.schema) (hlen : (image t).length < 2 ^ 63) :
    parseHeader build (image t) =
      if headerLen t.schema ≠ headerLen t.schema % 256 ^ 4 then
        fail (.format ("schema block ends at " ++ natText (headerLen t.schema) ++
          ", header says " ++ natText (headerLen t.schema % 256 ^ 4)))
      else .ok (fixedHeader (image t), ⟨t.schema.name, t.schema.version, t.schema.columns⟩) := by
  have himage := length_image t
  have hheader := headerLen_le_rowsOff t
  have hrows := rows_end_le_blobOff t
  have hfixed : fixed ≤ headerLen t.schema := Nat.le_add_right _ _
  have hmod := Nat.mod_le (headerLen t.schema) (256 ^ 4)
  have hmagic : field (image t) 0 8 = magic := by
    unfold image fixedBytes
    rw [List.append_assoc]
    exact field_left rfl
  have hh := fixedHeader_image_of_short hs hlen
  have hname : takeStr build (image t) fixed =
      .ok (t.schema.name, fixed + (encodeStr t.schema.name).length) := by
    rw [← length_fixedBytes t]
    unfold image schemaBlock
    rw [List.append_assoc]
    exact takeStr_encodeStr _ _ hs.name
  have hcolumns : takeColumns build (image t) t.schema.columns.length
      (fixed + (encodeStr t.schema.name).length) =
      .ok (t.schema.columns, headerLen t.schema) := by
    have hblock : headerLen t.schema = (fixedBytes t ++ encodeStr t.schema.name).length +
        ((t.schema.columns.zip (layout t.schema.types).offsets).flatMap encodeColumn).length := by
      unfold headerLen schemaBlock
      rw [List.length_append, List.length_append, length_fixedBytes, Nat.add_assoc]
    rw [hblock, ← length_fixedBytes t, ← List.length_append]
    unfold image schemaBlock
    rw [List.append_assoc, ← List.append_assoc]
    exact takeColumns_encode _ _ (length_offsets_eq t.schema) hs.column
  have hchecked : checkedHeader build (image t) = .ok (fixedHeader (image t)) := by
    unfold checkedHeader
    rw [if_neg (by omega), if_neg (not_not_intro hmagic)]
    dsimp only
    rw [hh]
    dsimp only
    rw [if_neg (by omega), addUsize_of_lt (by omega)]
    exact if_neg (by omega)
  unfold parseHeader
  rw [hchecked]
  change (takeStr build (image t) fixed >>= fun r => _) = _
  rw [hname]
  change (takeColumns build _ _ _ >>= fun r => _) = _
  rw [hh, hcolumns]
  change (if headerLen t.schema ≠ headerLen t.schema % 256 ^ 4 then _ else _) = _
  by_cases hcut : headerLen t.schema ≠ headerLen t.schema % 256 ^ 4
  · rw [if_pos hcut, if_pos hcut]
  · rw [if_neg hcut, if_neg hcut]
    have hshort : headerLen t.schema < 2 ^ 32 := by omega
    have hrow : (layout (t.schema.columns.map Prod.snd)).rowSize = t.rowSize :=
      congrArg Layout.rowSize t.layout_eq
    have hlayout : checkLayout build (t.schema.columns.map Prod.snd) = .ok () :=
      checkLayout_schema hshort
    change (checkLayout build (t.schema.columns.map Prod.snd) >>= fun _ => _) = _
    rw [hlayout]
    exact if_neg (not_not_intro hrow)

end Header

section Open

/-- The compiled schema `s` is the one the table carries. -/
structure Describes (s : Schema) (schema : SchemaRef) : Prop where
  name : s.name = schema.name
  version : s.version = schema.version
  columns : (s.columns.map fun c => (c.name, c.ty)) = schema.columns

/-- The two tables show a reader the same. -/
structure SameTable (t t' : Table build) : Prop where
  name : t'.schema.name = t.schema.name
  version : t'.schema.version = t.schema.version
  columns : t'.schema.columns = t.schema.columns
  sorted : t'.sorted = t.sorted
  digest : t'.digest = t.digest
  nrows : t'.nrows = t.nrows
  u64 : ∀ r c, t'.u64 r c = t.u64 r c
  i64 : ∀ r c, t'.i64 r c = t.i64 r c
  f64 : ∀ r c, t'.f64 r c = t.f64 r c
  bool : ∀ r c, t'.bool r c = t.bool r c
  str : ∀ r c, t'.str r c = t.str r c
  bytes : ∀ r c, t'.bytes r c = t.bytes r c
  listU32 : ∀ r c, t'.listU32 r c = t.listU32 r c
  listU64 : ∀ r c, t'.listU64 r c = t.listU64 r c
  listRaw : ∀ r c, t'.listRaw r c = t.listRaw r c

variable {t t' : Table build}

/-- The accessors read the schema's names and types, the rows and the blob only. -/
theorem sameTable_of_data (hname : t'.schema.name = t.schema.name)
    (hversion : t'.schema.version = t.schema.version)
    (hcolumns : t'.schema.columns = t.schema.columns) (hsorted : t'.sorted = t.sorted)
    (hnrows : t'.nrows = t.nrows) (hrows : t'.rows = t.rows) (hblob : t'.blob = t.blob) :
    SameTable t t' := by
  have hlayout : (⟨t'.offsets, t'.rowSize⟩ : Layout) = ⟨t.offsets, t.rowSize⟩ := by
    rw [← t'.layout_eq, ← t.layout_eq]
    unfold SchemaRef.types
    rw [hcolumns]
  have hoffsets := congrArg Layout.offsets hlayout
  have hrowSize := congrArg Layout.rowSize hlayout
  dsimp only at hoffsets hrowSize
  have hcell : t'.cell = t.cell := by
    funext r c want
    unfold Table.cell SchemaRef.colType SchemaRef.colName
    rw [hname, hcolumns, hnrows, hrows, hoffsets, hrowSize]
  have hblobRef : t'.blobRef = t.blobRef := by
    funext r c want
    unfold Table.blobRef
    rw [hcell, hblob]
  refine ⟨hname, hversion, hcolumns, hsorted, ?_, hnrows, ?_, ?_, ?_, ?_, ?_, ?_, ?_, ?_, ?_⟩
  · rw [t'.digest_eq, t.digest_eq, hrows, hblob]
  all_goals intro r c
  · unfold Table.u64
    rw [hcell]
  · unfold Table.i64
    rw [hcell]
  · unfold Table.f64
    rw [hcell]
  · unfold Table.bool
    rw [hcell]
  · unfold Table.str
    rw [hblobRef]
  · unfold Table.bytes
    rw [hblobRef]
  · unfold Table.listU32
    rw [hblobRef]
  · unfold Table.listU64
    rw [hblobRef]
  · unfold Table.listRaw SchemaRef.colType
    rw [hblobRef, hcolumns]

/-- A known schema that describes the table's, and no known schema, resolve to the table's. -/
theorem resolveSchema_same {schema : SchemaRef} {known : Option Schema}
    (hknown : ∀ s, known = some s → Describes s schema) :
    ∃ s, resolveSchema ⟨schema.name, schema.version, schema.columns⟩ known = .ok s ∧
      s.name = schema.name ∧ s.version = schema.version ∧ s.columns = schema.columns := by
  cases known with
  | none => exact ⟨_, rfl, rfl, rfl, rfl⟩
  | some s =>
    have hs := hknown s rfl
    refine ⟨.static s, ?_, hs.name, hs.version, hs.columns⟩
    exact (if_neg (not_not_intro hs.version)).trans (if_neg (not_not_intro hs.columns))

theorem write_eq_ok {b : Bytes} (h : write t = .ok b) : (image t).length < 2 ^ 63 ∧ image t = b := by
  by_cases hlen : (image t).length < 2 ^ 63
  · exact ⟨hlen, Except.ok.inj ((if_pos hlen).symm.trans h)⟩
  · exact absurd ((if_neg hlen).symm.trans h) (by nofun)

/-- Opening an image reads back all the writer put, and leaves the schema to be resolved. -/
theorem openOwned_image (t : Table build) (known : Option Schema) (verify : Bool)
    (hsize : (image t).length < 2 ^ 63) (hlen : headerLen t.schema < 2 ^ 32) :
    openOwned build (image t) known verify =
      resolveSchema ⟨t.schema.name, t.schema.version, t.schema.columns⟩ known >>= fun s =>
        assemble s t.nrows t.rows t.blob t.sorted := by
  have hs := short_of_headerLen hlen
  have himage := length_image t
  have hrowsEnd := rows_end_le_blobOff t
  have hparse := parseHeader_image t hs hsize
  rw [Nat.mod_eq_of_lt (show headerLen t.schema < 256 ^ 4 from hlen),
    if_neg (not_not_intro rfl), fixedHeader_image_of_short hs hsize] at hparse
  have hrows : Table.slice (image t) (rowsOff t) t.rows.length = .ok t.rows :=
    (if_pos (by omega)).trans (congrArg Except.ok (field_rows t))
  have hblob : Table.slice (image t) (blobOff t) t.blob.length = .ok t.blob :=
    (if_pos himage.ge).trans (congrArg Except.ok (field_blob t))
  have hdigest (h : Header) (hd : h.digest = t.digest.1) :
      checkDigest build h t.rows t.blob = .ok () := by
    unfold checkDigest
    rw [← t.digest_eq, hd, if_pos rfl]
  unfold openOwned
  rw [hparse]
  change (mulUsize build t.nrows.toNat t.rowSize >>= fun n => _) = _
  rw [t.rows_length]
  change (addUsize build (rowsOff t) t.rows.length >>= fun n => _) = _
  rw [addUsize_of_lt (by omega)]
  change (if _ then _ else _) = _
  rw [if_neg (by omega), hrows]
  change (Table.slice (image t) (blobOff t) t.blob.length >>= fun r => _) = _
  rw [hblob]
  cases verify with
  | false => rfl
  | true =>
    change (checkDigest build _ t.rows t.blob >>= fun _ => _) = _
    rw [hdigest _ rfl]
    rfl

/-- A table whose schema block is shorter than 4 GiB, with no compiled schema of its name or one
that describes it, opens from its image to the same table. -/
theorem open_write (t : Table build) {known : Option Schema} {b : Bytes} (verify : Bool)
    (hwrite : write t = .ok b) (hlen : headerLen t.schema < 2 ^ 32)
    (hknown : ∀ s, known = some s → Describes s t.schema) :
    ∃ t', openOwned build b known verify = .ok t' ∧ SameTable t t' := by
  obtain ⟨hsize, rfl⟩ := write_eq_ok hwrite
  obtain ⟨schema, hresolve, hname, hversion, hcolumns⟩ := resolveSchema_same hknown
  have htypes : schema.types = t.schema.types := congrArg (List.map Prod.snd) hcolumns
  have hmul : mulUsize build t.nrows.toNat (layout schema.types).rowSize = .ok t.rows.length := by
    rw [htypes, t.layout_eq]
    exact t.rows_length
  have hlayout : checkLayout build schema.types = .ok () := htypes ▸ checkLayout_schema hlen
  let opened : Table build := ⟨schema, t.nrows, (layout schema.types).rowSize,
    (layout schema.types).offsets, t.rows, t.blob, t.sorted, build.blake3 (t.rows ++ t.blob), rfl,
    hmul, rfl⟩
  refine ⟨opened, ?_, sameTable_of_data hname hversion hcolumns rfl rfl rfl rfl⟩
  rw [openOwned_image t known verify hsize hlen, hresolve]
  change (checkLayout build schema.types >>= fun _ => _) = _
  rw [hlayout]
  exact dif_pos hmul

/-- A schema block of 4 GiB or more, with no longer text in it, is refused: the header's length was
cut to 4 bytes. -/
theorem openOwned_cut (t : Table build) (known : Option Schema) (verify : Bool)
    (hs : Short t.schema) (hsize : (image t).length < 2 ^ 63) (hcut : 2 ^ 32 ≤ headerLen t.schema) :
    openOwned build (image t) known verify =
      fail (.format ("schema block ends at " ++ natText (headerLen t.schema) ++
        ", header says " ++ natText (headerLen t.schema % 2 ^ 32))) := by
  have hmod : headerLen t.schema % 2 ^ 32 < 2 ^ 32 := Nat.mod_lt _ (Nat.two_pow_pos 32)
  have hparse := parseHeader_image t hs hsize
  rw [show (256 : ℕ) ^ 4 = 2 ^ 32 from rfl, if_pos (by omega)] at hparse
  unfold openOwned
  rw [hparse]
  rfl

/-- The digest of one row and its text, as `blake3` gives it. -/
def sampleDigest : Digest :=
  ⟨[0x16, 0x44, 0xe2, 0xa7, 0xce, 0xa6, 0xa8, 0x5e, 0x45, 0xca, 0x4b, 0xfa, 0x13, 0x4a, 0x87, 0x5c,
    0xf1, 0x92, 0x1e, 0x21, 0x50, 0xc0, 0xb4, 0x22, 0x26, 0x86, 0x44, 0x11, 0x1f, 0x52, 0x56, 0xfc],
    rfl⟩

/-- The digest of no bytes. -/
def emptyDigest : Digest :=
  ⟨[0xaf, 0x13, 0x49, 0xb9, 0xf5, 0xf9, 0xa1, 0xa6, 0xa0, 0x40, 0x4d, 0xea, 0x36, 0xdc, 0xc9, 0x49,
    0x9b, 0xcb, 0x25, 0xc9, 0xad, 0xc1, 0x12, 0xb7, 0xcc, 0x9a, 0x93, 0xca, 0xe4, 0x1f, 0x32, 0x62],
    rfl⟩

def sampleBuild : Build where
  checks := true
  blake3 bs := if bs = [] then emptyDigest else sampleDigest
  utf8Error _ := "invalid utf-8 sequence"
  fromUtf8Lossy bs := (fromUtf8 bs).getD "?"

def sampleSchema : Schema where
  name := "symbols"
  version := 1
  columns := [⟨"address", .u64, .hex⟩, ⟨"name", .str, .dec⟩]

/-- The row of a symbol `main` at `0x401000`. -/
def sampleTable : Table sampleBuild where
  schema := .static sampleSchema
  nrows := 1
  rowSize := 16
  offsets := [0, 8]
  rows := toLe 8 0x401000 ++ (toLe 4 0 ++ toLe 4 4)
  blob := asBytes "main"
  sorted := true
  digest := sampleDigest
  layout_eq := rfl
  rows_length := rfl
  digest_eq := rfl

theorem describes_static (s : Schema) : Describes s (.static s) := ⟨rfl, rfl, rfl⟩

theorem open_write_sample :
    ∃ t', openOwned sampleBuild (image sampleTable) (some sampleSchema) true = .ok t' ∧
      SameTable sampleTable t' :=
  open_write sampleTable true (if_pos (by decide +kernel)) (by decide +kernel)
    fun _ h => Option.some.inj h ▸ describes_static sampleSchema

/-- A name of `n` letters. -/
def letters : ℕ → String
  | 0 => ""
  | n + 1 => (letters n).push 'a'

theorem length_letters (n : ℕ) : (asBytes (letters n)).length = n := by
  have hsize (s : String) : (asBytes s).length = s.utf8ByteSize := List.length_map _
  rw [hsize]
  induction n with
  | zero => rfl
  | succ n ih =>
    change ((letters n).push 'a').utf8ByteSize = n + 1
    rw [String.utf8ByteSize_push, ih]
    rfl

/-- A schema with a long name and no column. -/
def namedSchema (n : ℕ) : Schema := ⟨letters n, 1, []⟩

theorem layout_named (n : ℕ) : layout (SchemaRef.static (namedSchema n)).types = ⟨[], 0⟩ := by
  have htypes : (SchemaRef.static (namedSchema n)).types = [] := rfl
  rw [htypes]
  rfl

def namedTable (n : ℕ) : Table sampleBuild where
  schema := .static (namedSchema n)
  nrows := 0
  rowSize := 0
  offsets := []
  rows := []
  blob := []
  sorted := false
  digest := emptyDigest
  layout_eq := layout_named n
  rows_length := rfl
  digest_eq := rfl

theorem headerLen_named (n : ℕ) : headerLen (.static (namedSchema n)) = 100 + n := by
  unfold headerLen schemaBlock
  rw [List.length_append, length_encodeStr]
  change 96 + (4 + (asBytes (letters n)).length + 0) = _
  rw [length_letters]
  omega

theorem short_named {n : ℕ} (hn : n < 2 ^ 32) : Short (.static (namedSchema n)) where
  name := (length_letters n).trans_lt hn
  columns := Nat.two_pow_pos 32
  column _ hp := absurd hp List.not_mem_nil

theorem length_image_named {n : ℕ} (hn : n < 2 ^ 32) : (image (namedTable n)).length < 2 ^ 63 := by
  rw [length_image]
  unfold blobOff rowsOff align8
  have hlen : headerLen (namedTable n).schema = 100 + n := headerLen_named n
  have hrows : (namedTable n).rows.length = 0 := rfl
  have hblob : (namedTable n).blob.length = 0 := rfl
  rw [hlen, hrows, hblob]
  omega

theorem openOwned_named {n : ℕ} (hn : n < 2 ^ 32) (hcut : 2 ^ 32 ≤ 100 + n)
    (known : Option Schema) (verify : Bool) :
    openOwned sampleBuild (image (namedTable n)) known verify =
      fail (.format ("schema block ends at " ++ natText (100 + n) ++ ", header says " ++
        natText ((100 + n) % 2 ^ 32))) := by
  have hlen : headerLen (namedTable n).schema = 100 + n := headerLen_named n
  have h := openOwned_cut (namedTable n) known verify (short_named hn) (length_image_named hn)
    (hcut.trans_eq hlen.symm)
  rw [hlen] at h
  exact h

/-- The sample's columns under an older version, as a file of another build has them. -/
def foreignTable : Table sampleBuild where
  schema := .owned ⟨"symbols", 0, [("address", .u64), ("name", .str)]⟩
  nrows := 1
  rowSize := 16
  offsets := [0, 8]
  rows := toLe 8 0x401000 ++ (toLe 4 0 ++ toLe 4 4)
  blob := asBytes "main"
  sorted := true
  digest := sampleDigest
  layout_eq := rfl
  rows_length := rfl
  digest_eq := rfl

/-- A schema block of 4 GiB, and a compiled schema of another version, are refused. -/
theorem open_write_refused :
    write (namedTable (2 ^ 32 - 96)) = .ok (image (namedTable (2 ^ 32 - 96))) ∧
      openOwned sampleBuild (image (namedTable (2 ^ 32 - 96)))
          (some (namedSchema (2 ^ 32 - 96))) true =
        fail (.format ("schema block ends at " ++ natText (2 ^ 32 + 4) ++ ", header says " ++
          natText 4)) ∧
      write foreignTable = .ok (image foreignTable) ∧
      openOwned sampleBuild (image foreignTable) (some sampleSchema) true =
        fail (.version "symbols v0" "symbols v1") := by
  have hn : 2 ^ 32 - 96 < 2 ^ 32 := by omega
  have hopen := openOwned_named hn (by omega) (some (namedSchema (2 ^ 32 - 96))) true
  have hend : 100 + (2 ^ 32 - 96) = 2 ^ 32 + 4 := by norm_num
  have hsays : (2 ^ 32 + 4) % 2 ^ 32 = 4 := by norm_num
  rw [hend, hsays] at hopen
  have hsize : (image foreignTable).length < 2 ^ 63 := by decide +kernel
  refine ⟨if_pos (length_image_named hn), hopen, if_pos hsize, ?_⟩
  rw [openOwned_image foreignTable _ _ hsize (by decide +kernel)]
  rfl

end Open

end Tbl
end Mosura
