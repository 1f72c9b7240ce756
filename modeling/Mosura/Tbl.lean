import Mosura.Space
import Mosura.Lib.LittleEndian

/-! Tables and the `.tbl` image (`mosura-api`: `tbl.rs`, `table/mod.rs`, `schema.rs`). -/

namespace Mosura
namespace Tbl

open Lib (toLe fromLe field align8)

abbrev Bytes := List (BitVec 8)

inductive ColType
  | u8 | u16 | u32 | u64 | i64 | f64 | bool | str | bytes | listU32 | listU64
  deriving DecidableEq, Repr

namespace ColType

/-- `ty as u8`. -/
def code : ColType → BitVec 8
  | u8 => 1
  | u16 => 2
  | u32 => 3
  | u64 => 4
  | i64 => 5
  | f64 => 6
  | bool => 7
  | str => 8
  | bytes => 9
  | listU32 => 10
  | listU64 => 11

def fromU8 (v : BitVec 8) : Option ColType :=
  [u8, u16, u32, u64, i64, f64, bool, str, bytes, listU32, listU64].find? fun ty => ty.code = v

theorem fromU8_code (ty : ColType) : fromU8 ty.code = some ty := by
  cases ty <;> rfl

/-- The fixed cell width in a row. -/
def cellSize : ColType → ℕ
  | u8 | bool => 1
  | u16 => 2
  | u32 => 4
  | _ => 8

def align : ColType → ℕ
  | u8 | bool => 1
  | u16 => 2
  | u32 | str | bytes | listU32 | listU64 => 4
  | u64 | i64 | f64 => 8

def isVariable : ColType → Bool
  | str | bytes | listU32 | listU64 => true
  | _ => false

def name : ColType → String
  | u8 => "u8"
  | u16 => "u16"
  | u32 => "u32"
  | u64 => "u64"
  | i64 => "i64"
  | f64 => "f64"
  | bool => "bool"
  | str => "str"
  | bytes => "bytes"
  | listU32 => "list<u32>"
  | listU64 => "list<u64>"

end ColType

/-- One row layout: each column's offset within a row (a `u16`), and the row size. -/
structure Layout where
  offsets : List ℕ
  rowSize : ℕ

def wrap32 (n : ℕ) : ℕ := n % 2 ^ 32

/-- The offsets of the columns from `off` on, and where the last one ends. -/
def layoutFrom : ℕ → List ColType → List ℕ × ℕ
  | off, [] => ([], off)
  | off, ty :: types =>
    let off := wrap32 (off + ty.align - 1) / ty.align * ty.align
    let rest := layoutFrom (wrap32 (off + ty.cellSize)) types
    (off % 2 ^ 16 :: rest.1, rest.2)

def layout (types : List ColType) : Layout :=
  let l := layoutFrom 0 types
  ⟨l.1, wrap32 (l.2 + 7) / 8 * 8⟩

/-- No sum of `layout` from `off` on overflows its `u32`. -/
def layoutFits : ℕ → List ColType → Bool
  | off, [] => off + 7 < 2 ^ 32
  | off, ty :: types =>
    off + ty.align < 2 ^ 32 &&
      (let off := (off + ty.align - 1) / ty.align * ty.align
      off + ty.cellSize < 2 ^ 32 && layoutFits (off + ty.cellSize) types)

inductive ColHint
  | dec | hex
  deriving DecidableEq, Repr

structure Column where
  name : String
  ty : ColType
  hint : ColHint

/-- A compiled-in schema. -/
structure Schema where
  name : String
  version : BitVec 32
  columns : List Column

/-- A schema read from a `.tbl` whose name this build does not know. -/
structure OwnedSchema where
  name : String
  version : BitVec 32
  columns : List (String × ColType)

inductive SchemaRef
  | static (s : Schema)
  | owned (o : OwnedSchema)

namespace SchemaRef

def name : SchemaRef → String
  | static s => s.name
  | owned o => o.name

def version : SchemaRef → BitVec 32
  | static s => s.version
  | owned o => o.version

/-- The names and types of the columns. -/
def columns : SchemaRef → List (String × ColType)
  | static s => s.columns.map fun c => (c.name, c.ty)
  | owned o => o.columns

def types (s : SchemaRef) : List ColType := s.columns.map Prod.snd

def colName (s : SchemaRef) (c : ℕ) : Option String := s.columns[c]?.map Prod.fst

def colType (s : SchemaRef) (c : ℕ) : Option ColType := s.columns[c]?.map Prod.snd

end SchemaRef

inductive Error
  | format (text : String)
  | version (found expected : String)
  | notFound (text : String)
  | invalidArg (text : String)
  deriving DecidableEq, Repr

/-- How a call fails: an error it returns, or a panic. -/
inductive Failure
  | error (e : Error)
  | panic
  deriving DecidableEq, Repr

abbrev Result := Except Failure

def fail {α : Type} (e : Error) : Result α := .error (.error e)

def panicked {α : Type} : Result α := .error .panic

abbrev Digest := { d : Bytes // d.length = 32 }

/-- What the code uses of `blake3` and of the standard library's UTF-8 texts; `checks` is whether
the build checks overflow. -/
structure Build where
  checks : Bool
  blake3 : Bytes → Digest
  utf8Error : Bytes → String
  fromUtf8Lossy : Bytes → String

/-- `a + b` as a `usize`. -/
def addUsize (build : Build) (a b : ℕ) : Result ℕ :=
  if a + b < 2 ^ 64 then .ok (a + b)
  else if build.checks then panicked
  else .ok ((a + b) % 2 ^ 64)

/-- `a * b` as a `usize`. -/
def mulUsize (build : Build) (a b : ℕ) : Result ℕ :=
  if a * b < 2 ^ 64 then .ok (a * b)
  else if build.checks then panicked
  else .ok (a * b % 2 ^ 64)

/-- `layout` in a build that checks overflow panics where a sum of it overflows. -/
def checkLayout (build : Build) (types : List ColType) : Result Unit :=
  if build.checks && !layoutFits 0 types then panicked else .ok ()

/-- `str::as_bytes`. -/
def asBytes (s : String) : Bytes := s.toUTF8.data.toList.map UInt8.toBitVec

/-- `String::from_utf8`. -/
def fromUtf8 (bs : Bytes) : Option String :=
  String.fromUTF8? ⟨(bs.map UInt8.ofBitVec).toArray⟩

/-- A table with a schema, as `assemble` makes it. -/
structure Table (build : Build) where
  schema : SchemaRef
  nrows : U64
  rowSize : ℕ
  offsets : List ℕ
  rows : Bytes
  blob : Bytes
  sorted : Bool
  digest : Digest
  layout_eq : layout schema.types = ⟨offsets, rowSize⟩
  rows_length : mulUsize build nrows.toNat rowSize = .ok rows.length
  digest_eq : digest = build.blake3 (rows ++ blob)

def natText (n : ℕ) : String := toString n

variable {build : Build}

/-- `Table::assemble`. -/
def assemble (schema : SchemaRef) (nrows : U64) (rows blob : Bytes) (sorted : Bool) :
    Result (Table build) := do
  checkLayout build schema.types
  if h : mulUsize build nrows.toNat (layout schema.types).rowSize = .ok rows.length then
    .ok
      { schema := schema
        nrows := nrows
        rowSize := (layout schema.types).rowSize
        offsets := (layout schema.types).offsets
        rows := rows
        blob := blob
        sorted := sorted
        digest := build.blake3 (rows ++ blob)
        layout_eq := rfl
        rows_length := h
        digest_eq := rfl }
  else do
    let _ ← mulUsize build nrows.toNat (layout schema.types).rowSize
    fail (.format ("rows buffer is " ++ natText rows.length ++ " bytes, " ++ natText nrows.toNat ++
      " rows × " ++ natText (layout schema.types).rowSize ++ " expected"))

namespace Table

variable (t : Table build)

/-- `&bytes[start..start + n]`. -/
def slice (bs : Bytes) (start n : ℕ) : Result Bytes :=
  if start + n ≤ bs.length then .ok (field bs start n) else panicked

/-- The bytes of a cell whose column has one of the types `want`. -/
def cell (r : U64) (c : ℕ) (want : List ColType) : Result Bytes :=
  match t.schema.colType c, t.offsets[c]? with
  | none, _ => fail (.notFound ("column " ++ natText c ++ " of " ++ t.schema.name))
  | some ty, off =>
    if ty ∉ want then
      fail (.invalidArg ("column " ++ natText c ++ " (" ++ (t.schema.colName c).getD "?" ++ ") of " ++
        t.schema.name ++ " is " ++ ty.name ++ ", not " ++
        String.intercalate "/" (want.map ColType.name)))
    else if t.nrows.toNat ≤ r.toNat then
      fail (.notFound ("row " ++ natText r.toNat ++ " of " ++ t.schema.name ++ " (" ++
        natText t.nrows.toNat ++ " rows)"))
    else
      match off with
      | none => panicked
      | some off => slice t.rows ((r.toNat * t.rowSize + off) % 2 ^ 64) ty.cellSize

/-- `u64`; the value of a narrower column is widened. -/
def u64 (r : U64) (c : ℕ) : Result ℕ := do return fromLe (← t.cell r c [.u8, .u16, .u32, .u64])

/-- `i64`, as the bits of the value. -/
def i64 (r : U64) (c : ℕ) : Result ℕ := do return fromLe (← t.cell r c [.i64])

/-- `f64`, as the bits of the value. -/
def f64 (r : U64) (c : ℕ) : Result ℕ := do return fromLe (← t.cell r c [.f64])

def bool (r : U64) (c : ℕ) : Result Bool := do return fromLe (← t.cell r c [.bool]) ≠ 0

/-- The blob bytes a cell refers to. -/
def blobRef (r : U64) (c : ℕ) (want : List ColType) : Result Bytes := do
  let b ← t.cell r c want
  let off := fromLe (field b 0 4)
  let len := fromLe (field b 4 4)
  if off + len ≤ t.blob.length then return field t.blob off len
  else
    fail (.format ("blob reference " ++ natText off ++ "+" ++ natText len ++ " outside the blob (" ++
      natText t.blob.length ++ " bytes)"))

def str (r : U64) (c : ℕ) : Result String := do
  let b ← t.blobRef r c [.str]
  match fromUtf8 b with
  | some s => return s
  | none => fail (.format ("string cell is not UTF-8: " ++ build.utf8Error b))

def bytes (r : U64) (c : ℕ) : Result Bytes := t.blobRef r c [.bytes]

/-- `chunks_exact(width)`, as numbers. -/
def chunks (width : ℕ) (b : Bytes) : List ℕ :=
  (List.range (b.length / width)).map fun i => fromLe (field b (i * width) width)

def listU32 (r : U64) (c : ℕ) : Result (List ℕ) := do
  return chunks 4 (← t.blobRef r c [.listU32])

def listU64 (r : U64) (c : ℕ) : Result (List ℕ) := do
  return chunks 8 (← t.blobRef r c [.listU64])

/-- The raw list bytes and the number of elements. -/
def listRaw (r : U64) (c : ℕ) : Result (Bytes × ℕ) :=
  match t.schema.colType c with
  | none => fail (.notFound ("column " ++ natText c))
  | some ty => do
    let b ← t.blobRef r c [.listU32, .listU64]
    return (b, b.length / if ty = .listU32 then 4 else 8)

/-- The rows from the column's first cell on, and their stride. -/
def column (c : ℕ) : Result (Bytes × ℕ) :=
  match t.schema.colType c, t.offsets[c]? with
  | none, _ => fail (.notFound ("column " ++ natText c))
  | some ty, off =>
    if ty.isVariable then
      fail (.invalidArg ("column " ++ natText c ++ " is variable-length; use the cell accessors"))
    else
      match off with
      | none => panicked
      | some off =>
        if t.rows.isEmpty then .ok (t.rows, t.rowSize)
        else if off ≤ t.rows.length then .ok (t.rows.drop off, t.rowSize)
        else panicked

/-- `self.u64(r, c).ok()`. -/
def key? (c r : ℕ) : Result (Option ℕ) :=
  match t.u64 (BitVec.ofNat 64 r) c with
  | .ok v => .ok (some v)
  | .error (.error _) => .ok none
  | .error .panic => panicked

/-- The binary search for a key between two rows. -/
def findSorted (c key lo hi : ℕ) : Result (Option ℕ) :=
  if lo < hi then do
    let mid := lo + (hi - lo) / 2
    match ← t.key? c mid with
    | none => return none
    | some v =>
      if v < key then findSorted c key (mid + 1) hi
      else if key < v then findSorted c key lo mid
      else return some mid
  else .ok none
termination_by hi - lo

/-- The scan of `n` rows from `r` on for a key. -/
def findFrom (c key : ℕ) : ℕ → ℕ → Result (Option ℕ)
  | _, 0 => .ok none
  | r, n + 1 => do
    if (← t.key? c r) = some key then return some r
    else findFrom c key (r + 1) n

/-- The row whose column `c` equals `key`. -/
def find (c key : ℕ) : Result (Option ℕ) :=
  if t.sorted ∧ c = 0 then t.findSorted c key 0 t.nrows.toNat
  else t.findFrom c key 0 t.nrows.toNat

end Table

def magic : Bytes := [0x4d, 0x4f, 0x53, 0x54, 0x42, 0x4c, 0x30, 0x31]

def fixed : ℕ := 96

/-- A text with its length. -/
def encodeStr (s : String) : Bytes := toLe 4 (asBytes s).length ++ asBytes s

def encodeColumn (p : (String × ColType) × ℕ) : Bytes :=
  encodeStr p.1.1 ++ (p.1.2.code :: (toLe 2 p.2 ++ toLe 2 p.1.2.cellSize))

/-- The schema block. -/
def schemaBlock (schema : SchemaRef) : Bytes :=
  encodeStr schema.name ++
    (schema.columns.zip (layout schema.types).offsets).flatMap encodeColumn

def headerLen (schema : SchemaRef) : ℕ := fixed + (schemaBlock schema).length

def zeros (n : ℕ) : Bytes := List.replicate n 0

def rowsOff (t : Table build) : ℕ := align8 (headerLen t.schema)

def blobOff (t : Table build) : ℕ := align8 (rowsOff t + t.rows.length)

/-- The fixed header. -/
def fixedBytes (t : Table build) : Bytes :=
  magic ++ (toLe 4 (headerLen t.schema) ++ (toLe 4 t.schema.version.toNat ++
    (toLe 4 t.schema.columns.length ++ (toLe 4 t.rowSize ++ (toLe 4 t.sorted.toNat ++ (toLe 4 0 ++
    (toLe 8 t.nrows.toNat ++ (toLe 8 (rowsOff t) ++ (toLe 8 (blobOff t) ++
    (toLe 8 t.blob.length ++ t.digest.1))))))))))

/-- The `.tbl` image of a table. -/
def image (t : Table build) : Bytes :=
  fixedBytes t ++ (schemaBlock t.schema ++ (zeros (rowsOff t - headerLen t.schema) ++ (t.rows ++
    (zeros (blobOff t - (rowsOff t + t.rows.length)) ++ t.blob))))

/-- `write`: no `Vec` holds more than `isize::MAX` bytes. -/
def write (t : Table build) : Result Bytes :=
  if (image t).length < 2 ^ 63 then .ok (image t) else panicked

structure Header where
  headerLen : ℕ
  schemaVersion : BitVec 32
  ncols : ℕ
  rowSize : ℕ
  sorted : Bool
  nrows : U64
  rowsOff : ℕ
  blobOff : ℕ
  blobLen : ℕ
  digest : Bytes

def u32At (b : Bytes) (at_ : ℕ) : ℕ := fromLe (field b at_ 4)

def u64At (b : Bytes) (at_ : ℕ) : ℕ := fromLe (field b at_ 8)

/-- `take_str`: the text at `at_`, and where it ends. -/
def takeStr (build : Build) (b : Bytes) (at_ : ℕ) : Result (String × ℕ) :=
  if b.length < at_ + 4 then fail (.format "truncated schema block")
  else
    let n := u32At b at_
    if b.length < at_ + 4 + n then fail (.format "truncated schema name")
    else
      match fromUtf8 (field b (at_ + 4) n) with
      | some s => .ok (s, at_ + 4 + n)
      | none =>
        fail (.format ("schema name is not UTF-8: " ++ build.utf8Error (field b (at_ + 4) n)))

/-- `n` column records from `at_` on, and where they end. -/
def takeColumns (build : Build) (b : Bytes) : ℕ → ℕ → Result (List (String × ColType) × ℕ)
  | 0, at_ => .ok ([], at_)
  | n + 1, at_ => do
    let (cname, at_) ← takeStr build b at_
    if b.length < at_ + 5 then fail (.format "truncated column record")
    else
      match (b[at_]?).bind ColType.fromU8 with
      | none =>
        fail (.format ("column " ++ cname ++ ": unknown type code " ++
          natText ((b[at_]?).elim 0 BitVec.toNat)))
      | some ty =>
        let (columns, at_) ← takeColumns build b n (at_ + 5)
        return ((cname, ty) :: columns, at_)

def fixedHeader (b : Bytes) : Header where
  headerLen := u32At b 8
  schemaVersion := BitVec.ofNat 32 (u32At b 12)
  ncols := u32At b 16
  rowSize := u32At b 20
  sorted := (u32At b 24).testBit 0
  nrows := BitVec.ofNat 64 (u64At b 32)
  rowsOff := u64At b 40
  blobOff := u64At b 48
  blobLen := u64At b 56
  digest := field b 64 32

/-- The fixed header, after the checks `parse_header` begins with. -/
def checkedHeader (build : Build) (b : Bytes) : Result Header :=
  if b.length < fixed then
    fail (.format (natText b.length ++ " bytes is shorter than a .tbl header"))
  else if field b 0 8 ≠ magic then
    fail (.version (build.fromUtf8Lossy (field b 0 8)) (build.fromUtf8Lossy magic))
  else
    let h := fixedHeader b
    if b.length < h.headerLen ∨ b.length < h.rowsOff ∨ b.length < h.blobOff then
      fail (.format "a .tbl header points outside the file")
    else do
      if b.length < (← addUsize build h.blobOff h.blobLen) then
        fail (.format "a .tbl header points outside the file")
      else return h

def parseHeader (build : Build) (b : Bytes) : Result (Header × OwnedSchema) := do
  let h ← checkedHeader build b
  let (name, at_) ← takeStr build b fixed
  let (columns, at_) ← takeColumns build b h.ncols at_
  if at_ ≠ h.headerLen then
    fail (.format ("schema block ends at " ++ natText at_ ++ ", header says " ++
      natText h.headerLen))
  else do
    checkLayout build (columns.map Prod.snd)
    if (layout (columns.map Prod.snd)).rowSize ≠ h.rowSize then
      fail (.format ("row size " ++ natText h.rowSize ++ " in the header, " ++
        natText (layout (columns.map Prod.snd)).rowSize ++ " from the column types"))
    else return (h, ⟨name, h.schemaVersion, columns⟩)

/-- `Vec::with_capacity(h.ncols)`: how many columns `parse_header` makes room for before it reads
the first. -/
def columnCapacity (build : Build) (b : Bytes) : Result ℕ := do
  let h ← checkedHeader build b
  let _ ← takeStr build b fixed
  return h.ncols

def versionText (name : String) (version : BitVec 32) : String :=
  name ++ " v" ++ natText version.toNat

/-- A known schema must match the compiled version and columns exactly. -/
def resolveSchema (own : OwnedSchema) : Option Schema → Result SchemaRef
  | none => .ok (.owned own)
  | some s =>
    if s.version ≠ own.version then
      fail (.version (versionText own.name own.version) (versionText s.name s.version))
    else if (s.columns.map fun c => (c.name, c.ty)) ≠ own.columns then
      fail (.version (versionText own.name own.version ++ " with other columns")
        (versionText s.name s.version))
    else .ok (.static s)

def checkDigest (build : Build) (h : Header) (rows blob : Bytes) : Result Unit :=
  if (build.blake3 (rows ++ blob)).1 = h.digest then .ok ()
  else fail (.format "content digest mismatch: the file is corrupt or was altered")

/-- Open a `.tbl` image held in memory. -/
def openOwned (build : Build) (b : Bytes) (known : Option Schema) (verify : Bool) :
    Result (Table build) := do
  let (h, own) ← parseHeader build b
  let rowsLen ← mulUsize build h.nrows.toNat h.rowSize
  if b.length < (← addUsize build h.rowsOff rowsLen) then
    fail (.format "rows extend past the end of the file")
  else
    let rows ← Table.slice b h.rowsOff rowsLen
    let blob ← Table.slice b h.blobOff h.blobLen
    if verify then checkDigest build h rows blob
    let schema ← resolveSchema own known
    assemble schema h.nrows rows blob h.sorted

end Tbl
end Mosura
