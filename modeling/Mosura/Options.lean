import Mosura.Lib.KeyMap
import Mosura.Lib.Text

/-! The options and their tag (`options/mod.rs`, `options/registry.rs`). -/

namespace Mosura
namespace Options
open Lib

inductive Affects
  | result | diagnostic | environment | input
  deriving DecidableEq, Repr

inductive OptType
  | bool
  | u64
  | hex
  | str
  | enum (allowed : List Text)
  | list (allowed : List Text)
  | scope
  deriving DecidableEq, Repr

/-- `join("|")` -/
def alternatives (allowed : List Text) : Text := ['|'].intercalate allowed

def OptType.name : OptType → Text
  | bool => "bool"
  | u64 => "u64"
  | hex => "hex"
  | str => "str"
  | enum allowed => "one of " ++ alternatives allowed
  | list [] => "list"
  | list allowed => "list of " ++ alternatives allowed
  | scope => "all|none|<hex,..>"

/-- The values that a type lists. -/
def OptType.listed : OptType → List Text
  | enum allowed => allowed
  | list allowed => allowed
  | _ => []

structure OptionSpec where
  key : Text
  ty : OptType
  default : Text
  doc : Text
  affects : Affects
  deriving DecidableEq, Repr

/-- A character of a key: keys are dotted lower-case. -/
def isKeyChar (c : Char) : Bool :=
  ('a' ≤ c && c ≤ 'z') || ('0' ≤ c && c ≤ '9') || c = '.' || c = '-'

/-- The registered keys: no two the same, all spelled as `register` wants them, and no `;` in a
default or in a listed value. -/
structure Registry where
  specs : List OptionSpec
  nodup : (specs.map OptionSpec.key).Nodup
  spelled : ∀ spec ∈ specs, spec.key ≠ [] ∧ ∀ c ∈ spec.key, isKeyChar c = true
  plain : ∀ spec ∈ specs, ';' ∉ spec.default ∧ ∀ v ∈ spec.ty.listed, ';' ∉ v

namespace Registry

def find (reg : Registry) (key : Text) : Option OptionSpec :=
  reg.specs.find? (·.key = key)

def lookup (reg : Registry) (key : Text) : Option OptionSpec := reg.find (trim key)

end Registry

def parseBool (v : Text) : Option Bool :=
  if trim v ∈ (["1", "true", "on", "yes"] : List Text) then some true
  else if trim v ∈ (["0", "false", "off", "no"] : List Text) then some false
  else none

/-- `char::to_digit` -/
def toDigit (radix : ℕ) (c : Char) : Option ℕ :=
  let n := c.toNat
  let d :=
    if '0' ≤ c ∧ c ≤ '9' then some (n - 48)
    else if 'a' ≤ c ∧ c ≤ 'z' then some (n - 87)
    else if 'A' ≤ c ∧ c ≤ 'Z' then some (n - 55)
    else none
  d.filter (· < radix)

/-- `u64::from_str_radix` -/
def fromStrRadix (radix : ℕ) (t : Text) : Option ℕ :=
  let digits :=
    match t with
    | '+' :: c :: rest => c :: rest
    | t => t
  if digits = [] then none
  else
    digits.foldlM (fun n c => (toDigit radix c).bind fun d =>
      if n * radix + d < 2 ^ 64 then some (n * radix + d) else none) 0

def parseHex (v : Text) : Option ℕ :=
  let t :=
    match trim v with
    | '0' :: 'x' :: t => t
    | '0' :: 'X' :: t => t
    | t => t
  if t = [] then none else fromStrRadix 16 t

/-- The parts between commas, trimmed, but for empty ones. -/
def tokens (t : Text) : List Text :=
  ((t.splitOn ',').map trim).filter (· ≠ [])

def quoted (t : Text) : Text := "`" ++ t ++ "`"

/-- The value is one of its key's type; else the message. -/
def validate (spec : OptionSpec) (value : Text) : Except Text Unit :=
  match spec.ty with
  | .bool =>
    if (parseBool value).isSome then .ok ()
    else .error (quoted spec.key ++ " wants true/false, got " ++ quoted value)
  | .u64 =>
    if (fromStrRadix 10 (trim value)).isSome then .ok ()
    else .error (quoted spec.key ++ " wants a decimal number, got " ++ quoted value)
  | .hex =>
    if value = [] ∨ (parseHex value).isSome then .ok ()
    else .error (quoted spec.key ++ " wants a hex value, got " ++ quoted value)
  | .str => .ok ()
  | .enum allowed =>
    if trim value ∈ allowed then .ok ()
    else
      .error (quoted spec.key ++ " wants one of " ++ alternatives allowed ++ ", got " ++
        quoted value)
  | .list allowed =>
    match (tokens value).find? fun tok => allowed ≠ [] ∧ tok ∉ allowed with
    | some tok =>
      .error (quoted spec.key ++ ": " ++ quoted tok ++ " is not one of " ++ alternatives allowed)
    | none => .ok ()
  | .scope =>
    if trim value ∈ (["all", "none"] : List Text) then .ok ()
    else
      match (tokens (trim value)).find? fun tok => (parseHex tok).isNone with
      | some tok =>
        .error (quoted spec.key ++ " wants all, none or hex addresses, got " ++ quoted tok)
      | none => .ok ()

/-- The core's parsers of the three declaration keys; each gives its message. -/
structure Declarations where
  parseIndirectInputs : Text → Except Text Unit
  parseFunctionInputs : Text → Except Text Unit
  parseFunctionOutputs : Text → Except Text Unit

def Declarations.check (core : Declarations) (key value : Text) : Except Text Unit := do
  if key = "decompile.indirect-inputs".toList then core.parseIndirectInputs value
  if key = "decompile.function-inputs".toList then core.parseFunctionInputs value
  if key = "decompile.function-outputs".toList then core.parseFunctionOutputs value

end Options

/-- A set of explicit values, by key. -/
structure Options where
  values : List (Lib.Text × Lib.Text) := []
  deriving DecidableEq, Repr

namespace Options
open Lib

variable (reg : Registry) (core : Declarations)

def spec (key : Text) : Except Text OptionSpec :=
  match reg.lookup key with
  | some spec => .ok spec
  | none =>
    .error ("unknown option key " ++ quoted key ++
      " (see the registry: `mosura ops`, `mosura_options_registry`)")

def set (o : Options) (key value : Text) : Except Text Options := do
  let s ← spec reg key
  (validate s value).mapError fun m => m ++ " — " ++ s.key ++ ": " ++ s.doc
  -- the key as it was given, the one looked up is trimmed
  core.check key value
  return { values := KeyMap.insert s.key (trim value) o.values }

def unset (o : Options) (key : Text) : Except Text Options := do
  let s ← spec reg key
  return { values := KeyMap.erase s.key o.values }

/-- The effective value: explicit, else the default. -/
def get (o : Options) (key : Text) : Except Text Text := do
  let s ← spec reg key
  return (KeyMap.lookup s.key o.values).getD s.default

/-- One part of `key=value;key=value`. -/
def assignPart (o : Options) (part : Text) : Except Text Options :=
  if '=' ∈ part then
    set reg core o (trim (part.takeWhile (· ≠ '='))) (part.dropWhile (· ≠ '=')).tail
  else do
    let s ← spec reg part
    if s.ty ≠ .bool then .error (quoted part ++ " needs a value (" ++ s.ty.name ++ ")")
    else set reg core o part "true"

/-- The parts one after the other, up to one that fails. -/
def assignParts (o : Options) : List Text → Options × Except Text Unit
  | [] => (o, .ok ())
  | part :: parts =>
    match assignPart reg core o part with
    | .ok o => assignParts o parts
    | .error e => (o, .error e)

def assign (o : Options) (text : Text) : Options × Except Text Unit :=
  assignParts reg core o (((text.splitOn ';').map trim).filter (· ≠ []))

/-- `key=value` -/
def part (e : Text × Text) : Text := e.1 ++ '=' :: e.2

/-- A result key's value that is not its default; `none` for a key that is not registered. -/
def deviates (e : Text × Text) : Option Bool :=
  (reg.lookup e.1).map fun s => s.affects = .result ∧ e.2 ≠ s.default

/-- The option digest of a cache key; `none` is a panic at a key that is not registered. -/
def tag (o : Options) : Option Text := do
  let entered ← o.values.filterM (deviates reg)
  return if entered = [] then "default" else [';'].intercalate (entered.map part)

/-- The options that calls lead to. -/
inductive Built : Options → Prop
  | new : Built {}
  | set {o o' : Options} {key value : Text} : Built o → o.set reg core key value = .ok o' → Built o'
  | unset {o o' : Options} {key : Text} : Built o → o.unset reg key = .ok o' → Built o'
  | assign {o : Options} (text : Text) : Built o → Built (o.assign reg core text).1

end Options
end Mosura
