import Mosura.Nzmask

/-! Integer value ranges on a circle, `circlerange.rs`: the half that pulls a range back through the
ops that compute a switch variable, over checked 64-bit arithmetic. -/

namespace Mosura

/-- A circular integer range `[left, right)` over the integers mod `mask + 1`, with stride `step`. -/
structure CircleRange where
  /-- Left boundary of the open range `[left, right)`. -/
  left : ℕ
  /-- Right boundary of the open range `[left, right)`. -/
  right : ℕ
  /-- Bit mask defining the domain size (modulus) of the range. -/
  mask : ℕ
  /-- `true` if the set is empty. -/
  isempty : Bool
  /-- Explicit step size. -/
  step : ℤ
deriving DecidableEq, Repr

namespace CircleRange

/-! Plain `u64` and `u32` arithmetic: `none` is the overflow panic. -/

def addU64 (a b : ℕ) : Option ℕ := if a + b < 2 ^ 64 then some (a + b) else none

def subU64 (a b : ℕ) : Option ℕ := if b ≤ a then some (a - b) else none

def shlU64 (a n : ℕ) : Option ℕ := if n < 64 then some (a <<< n % 2 ^ 64) else none

def shrU64 (a n : ℕ) : Option ℕ := if n < 64 then some (a >>> n) else none

def addU32 (a b : ℕ) : Option ℕ := if a + b < 2 ^ 32 then some (a + b) else none

def wrappingAdd (a b : ℕ) : ℕ := (a + b) % 2 ^ 64

def wrappingSub (a b : ℕ) : ℕ := (a + (2 ^ 64 - b)) % 2 ^ 64

/-- `!a` on 64 bits. -/
def notU64 (a : ℕ) : ℕ := 2 ^ 64 - 1 - a

/-- `x as u64` of an `i32`. -/
def asU64 (x : ℤ) : ℕ := (x % 2 ^ 64).toNat

/-- `x as u32` of an `i32`. -/
def asU32 (x : ℤ) : ℕ := (x % 2 ^ 32).toNat

/-- `x as i32` of a `u64`. -/
def asI32 (x : ℕ) : ℤ := Int.bmod x (2 ^ 32)

/-- `self.step as u64`. -/
def stepU (R : CircleRange) : ℕ := asU64 R.step

/-- `calc_mask` of a byte count. -/
def maskOf (size : ℕ) : ℕ := (calcMask size).toNat

/-- The single-value boolean range. -/
def fromBool (val : Bool) : CircleRange :=
  { mask := 0xff, step := 1, left := val.toNat, right := val.toNat + 1, isempty := false }

/-- A single value. -/
def fromValue (val size : ℕ) : Option CircleRange :=
  (addU64 val 1).map fun next =>
    { mask := maskOf size, step := 1, left := val, right := next &&& maskOf size, isempty := false }

/-- `set_value`: every field of the range is overwritten. -/
def setValue (_R : CircleRange) (val size : ℕ) : Option CircleRange :=
  (addU64 val 1).map fun next =>
    { mask := maskOf size, step := 1, left := val, right := next &&& maskOf size, isempty := false }

/-- Contains a single value. -/
def isSingle (R : CircleRange) : Bool :=
  !R.isempty && R.right == (wrappingAdd R.left R.stepU &&& R.mask)

/-- Canonicalize a full or empty `left == right`. -/
def normalize (R : CircleRange) : CircleRange :=
  if R.left = R.right then
    let left := if R.step ≠ 1 then R.left % R.stepU else 0
    { R with left := left, right := left }
  else R

/-- Set to the complement (unit step only). -/
def complement (R : CircleRange) : CircleRange :=
  if R.isempty then { R with left := 0, right := 0, isempty := false }
  else if R.left = R.right then { R with isempty := true }
  else { R with left := R.right, right := R.left }

/-- `contains` of one value. -/
def containsVal (R : CircleRange) (val : ℕ) : Bool :=
  if R.isempty then false
  else if R.step ≠ 1 ∧ R.left % R.stepU ≠ val % R.stepU then false
  else if R.left < R.right then
    if val < R.left then false else if R.right ≤ val then false else true
  else if R.right < R.left then
    if val < R.right then true else if R.left ≤ val then true else false
  else true

/-- Coerce to a boolean range; `true` if the range contained both 0 and 1. -/
def convertToBoolean (R : CircleRange) : Bool × CircleRange :=
  if R.isempty then (false, R)
  else
    let B : CircleRange := { R with mask := 0xff, step := 1 }
    if R.containsVal 0 ∧ R.containsVal 1 then
      (true, { B with left := 0, right := 2, isempty := false })
    else if R.containsVal 0 then (false, { B with left := 0, right := 1, isempty := false })
    else if R.containsVal 1 then (false, { B with left := 1, right := 2, isempty := false })
    else (false, { B with isempty := true })

/-- One boundary of `new_stride` raised to the next value with remainder `rem`. -/
def raise (step : ℤ) (rem bound : ℕ) : Option ℕ :=
  let boundRem := bound % asU64 step % 2 ^ 32
  if rem < boundRem then
    (addU32 rem (asU32 step)).bind fun sum =>
      (subU64 sum boundRem).map fun up => wrappingAdd bound up
  else some (wrappingAdd bound (rem - boundRem))

/-- Restrict a range to a new stride: the result is empty, or has these boundaries. -/
def newStride (mask : ℕ) (step oldStep : ℤ) (rem left right : ℕ) : Option (Bool × ℕ × ℕ) :=
  if oldStep ≠ 1 ∧ left % asU64 oldStep % 2 ^ 32 ≠ rem % asU32 oldStep then
    some (true, left, right) -- step is completely off
  else
    (raise step rem left).bind fun l => (raise step rem right).map fun r =>
      (decide (left < right) != decide (l &&& mask < r &&& mask), l &&& mask, r &&& mask)

/-- Fit a range into a new domain: the result is empty, or has these boundaries. -/
def newDomain (newMask : ℕ) (newStep : ℤ) (left right : ℕ) : Bool × ℕ × ℕ :=
  let rem := if newStep ≠ 1 then left % asU64 newStep else 0
  if newMask < left ∧ newMask < right then
    if left < right then (true, left, right) -- completely out of bounds
    else (false, rem, rem)
  else
    let l := if newMask < left then rem else left
    let r := if newMask < right then rem else right
    if l = r then (false, rem, rem) else (false, l, r)

/-- The normalized overlap categories of `encode_range_overlaps`. -/
inductive Overlap
  | a | b | c | d | e | f | g
deriving DecidableEq, Repr

open Overlap in
/-- From raw boundary-overlap bit patterns to a normalized overlap category. -/
def arrange : List Overlap :=
  [g, c, g, b, e, g, d, a, g, g, g, g, g, g, g, e,
   g, g, g, g, c, g, b, g, g, g, g, g, g, g, g, c,
   d, f, g, g, g, g, g, g, g, e, g, d, g, g, g, g,
   b, g, g, g, f, g, g, g, g, c, g, b, e, g, d, a]

/-- The overlap category of two ranges, from the order of their four boundaries. -/
def encodeRangeOverlaps (op1left op1right op2left op2right : ℕ) : Overlap :=
  arrange.getD ((if op1left ≤ op1right then 0x20 else 0) ||| (if op1left ≤ op2left then 0x10 else 0)
    ||| (if op1left ≤ op2right then 8 else 0) ||| (if op1right ≤ op2left then 4 else 0)
    ||| (if op1right ≤ op2right then 2 else 0) ||| (if op2left ≤ op2right then 1 else 0)) .g

/-- `ARRANGE` as it is spelled. -/
def arrangeText : String := "gcgbegdagggggggeggggcgbggggggggcdfgggggggegdggggbgggfggggcgbegda"

def Overlap.letter : Overlap → Char
  | .a => 'a'
  | .b => 'b'
  | .c => 'c'
  | .d => 'd'
  | .e => 'e'
  | .f => 'f'
  | .g => 'g'

/-- Both right boundaries at the larger step, and that step; `none` if the range of the smaller step
is not a single value. -/
def unionStride (R op2 : CircleRange) : Option (ℕ × ℕ × ℤ) :=
  if R.step < op2.step then
    if R.isSingle then some (wrappingAdd R.left op2.stepU &&& R.mask, op2.right, op2.step) else none
  else if op2.step < R.step then
    if op2.isSingle then some (R.right, wrappingAdd op2.left R.stepU &&& R.mask, R.step) else none
  else some (R.right, op2.right, R.step)

/-- Union as a single interval: 0 if valid, 2 if the union is two pieces. -/
def circleUnion (R op2 : CircleRange) : ℤ × CircleRange :=
  if op2.isempty then (0, R)
  else if R.isempty then (0, op2)
  else if R.mask ≠ op2.mask then (2, R) -- cannot union different domains
  else
    match unionStride R op2 with
    | none => (2, R)
    | some (aRight, bRight, newStep) =>
      let rem := if newStep ≠ 1 then R.left % asU64 newStep else 0
      let S : CircleRange := { R with step := newStep }
      if newStep ≠ 1 ∧ rem ≠ op2.left % asU64 newStep then (2, R)
      else if R.left = aRight ∨ op2.left = bRight then (0, { S with left := rem, right := rem })
      else
        match (encodeRangeOverlaps R.left aRight op2.left bRight).letter with
        | 'a' | 'f' =>
          if aRight = op2.left then (0, { S with right := bRight })
          else if R.left = bRight then (0, { S with left := op2.left, right := aRight })
          else (2, R)
        | 'b' => (0, { S with right := bRight })
        | 'c' => (0, { S with right := aRight })
        | 'd' => (0, { S with left := op2.left, right := bRight })
        | 'e' => (0, { S with left := op2.left, right := aRight })
        | 'g' => (0, { S with left := rem, right := rem })
        | _ => (-1, R) -- never reached

/-- A minimal range containing both; `true` if the container is everything. -/
def minimalContainer (R op2 : CircleRange) (maxStep : ℤ) : Option (Bool × CircleRange) :=
  let min := if R.left < op2.left then R.left else op2.left
  let max := if R.left < op2.left then op2.left else R.left
  let diff := max - min
  if R.isSingle ∧ op2.isSingle ∧ 0 < diff ∧ diff ≤ asU64 maxStep ∧
      leastsigbitSet (BitVec.ofNat 64 diff) = mostsigbitSet (BitVec.ofNat 64 diff) then
    (addU64 max (asU64 (asI32 diff))).map fun next =>
      (false, { R with step := asI32 diff, left := min, right := next &&& R.mask })
  else
    let aRight := wrappingAdd (wrappingSub R.right R.stepU) 1 -- treat as step 1
    let bRight := wrappingAdd (wrappingSub op2.right op2.stepU) 1
    let S : CircleRange := { R with step := 1, mask := R.mask ||| op2.mask }
    let finish := fun T : CircleRange => (decide (T.normalize.left = T.normalize.right), T.normalize)
    match encodeRangeOverlaps R.left aRight op2.left bRight with
    | .a =>
      (subU64 S.mask bRight).map fun gap =>
        if wrappingAdd (wrappingAdd R.left gap) 1 < wrappingSub op2.left aRight then
          finish { S with left := op2.left, right := aRight }
        else finish { S with right := bRight }
    | .f =>
      (subU64 S.mask aRight).map fun gap =>
        if wrappingAdd (wrappingAdd op2.left gap) 1 < wrappingSub R.left bRight then
          finish { S with right := bRight }
        else finish { S with left := op2.left, right := aRight }
    | .b => some (finish { S with right := bRight })
    | .c => some (finish { S with right := aRight })
    | .d => some (finish { S with left := op2.left, right := bRight })
    | .e => some (finish { S with left := op2.left, right := aRight })
    | .g => some (finish { S with left := 0, right := 0 })

/-- The boundaries of the two ranges. -/
abbrev Bounds := (ℕ × ℕ) × ℕ × ℕ

/-- The range with the smaller step moved to the larger one; `none` inside if nothing is left. -/
def sameStride (R op2 : CircleRange) : Option (Option Bounds) :=
  if R.step < op2.step then
    let rem := op2.left % op2.stepU % 2 ^ 32
    (newStride R.mask op2.step R.step rem R.left R.right).map fun s =>
      if s.1 then none else some (s.2, op2.left, op2.right)
  else if op2.step < R.step then
    let rem := R.left % R.stepU % 2 ^ 32
    (newStride op2.mask R.step op2.step rem op2.left op2.right).map fun s =>
      if s.1 then none else some ((R.left, R.right), s.2)
  else some (some ((R.left, R.right), op2.left, op2.right))

/-- The range with the larger domain moved to the smaller one; `none` if nothing is left. -/
def sameDomain (R op2 : CircleRange) (newStep : ℤ) (p : Bounds) : Option Bounds :=
  let newMask := R.mask &&& op2.mask
  if R.mask ≠ newMask then
    let s := newDomain newMask newStep p.1.1 p.1.2
    if s.1 then none else some (s.2, p.2)
  else if op2.mask ≠ newMask then
    let s := newDomain newMask newStep p.2.1 p.2.2
    if s.1 then none else some (p.1, s.2)
  else some p

/-- The range with new boundaries, empty if they meet. -/
def cut (R : CircleRange) (left right : ℕ) : CircleRange :=
  { R with left := left, right := right, isempty := R.isempty || left == right }

/-- The intersection of two ranges with one step over one domain, given by their boundaries; `none`
if it is two pieces. -/
def meet (R : CircleRange) (p : Bounds) : Option CircleRange :=
  let ⟨⟨myleft, myright⟩, op2left, op2right⟩ := p
  if myleft = myright then some { R with left := op2left, right := op2right }
  else if op2left = op2right then some { R with left := myleft, right := myright }
  else
    match encodeRangeOverlaps myleft myright op2left op2right with
    | .a | .f => some { R with isempty := true }
    | .b => some (R.cut op2left myright)
    | .c => some { R with left := op2left, right := op2right }
    | .d => some { R with left := myleft, right := myright }
    | .e => some (R.cut myleft op2right)
    | .g =>
      if myleft = op2right then some (R.cut op2left myright)
      else if op2left = myright then some (R.cut myleft op2right)
      else none

/-- Intersect as a single interval: 0 if valid, 2 if the intersection is two pieces. -/
def intersect (R op2 : CircleRange) : Option (ℕ × CircleRange) :=
  if R.isempty then some (0, R)
  else if op2.isempty then some (0, { R with isempty := true })
  else
    let newStep := max R.step op2.step
    (sameStride R op2).map fun q =>
      match q.bind (sameDomain R op2 newStep) with
      | none => (0, { R with isempty := true })
      | some p =>
        match meet R p with
        | none => (2, R)
        | some S => (0, { S with mask := R.mask &&& op2.mask, step := newStep })

/-- The loop of `bit_transitions`, with `k` bits to go. -/
def bitTransitionsFrom : ℕ → U64 → Bool → ℕ → ℕ
  | 0, _, _, res => res
  | k + 1, val, last, res =>
    let val := val >>> 1
    let cur := val.getLsbD 0
    let res := if cur = last then res else res + 1
    if val = 0 then res else bitTransitionsFrom k val cur res

/-- The number of 0->1 and 1->0 transitions of the `size`-byte value from bit 0. -/
def bitTransitions (val : U64) (size : ℕ) : ℕ :=
  bitTransitionsFrom (8 * size - 1) val (val.getLsbD 0) 0

/-- Build a range from a putative mask; `true` if the mask was valid. -/
def setNzMask (R : CircleRange) (nzmask : U64) (size : ℕ) : Bool × CircleRange :=
  let trans := bitTransitions nzmask size
  let hasstep := !nzmask.getLsbD 0
  if 2 < trans then (false, R) -- too many transitions to form a range
  else if !hasstep && trans == 2 then (false, R) -- two sections of non-zero bits
  else
    let S : CircleRange := { R with isempty := false, mask := maskOf size }
    if trans = 0 then
      if hasstep then (true, { S with step := 1, left := 0, right := 1 }) -- only zero
      else (true, { S with step := 1, left := 0, right := 0 }) -- everything
    else
      -- `none` is -1, whose `as u32` is all ones; `wrapping_shl` takes the amount modulo 32
      let shift := (leastsigbitSet nzmask).getD (2 ^ 32 - 1)
      let step := asI32 (1 <<< (shift % 32))
      (true, { S with step := step, left := 0,
                      right := wrappingAdd nzmask.toNat (asU64 step) &&& S.mask })

/-- The value form of `sign_extend`. -/
def signExtend (inp sizein sizeout : ℕ) : Option ℕ :=
  let i := min sizein 8
  let o := min sizeout 8
  let sval := BitVec.ofNat 64 inp <<< ((8 - i) * 8 % 64)
  if i ≤ o ∧ (o - i) * 8 < 64 then shrU64 (sval.sshiftRight ((o - i) * 8)).toNat ((8 - o) * 8)
  else none

/-- Pull the range back through a unary operator: `true` if a valid range is formed. -/
def pullBackUnary (R : CircleRange) (opc : OpCode) (inSize outSize : ℕ) :
    Option (Bool × CircleRange) :=
  if R.isempty then some (true, R) -- no input maps to an empty output set
  else
    match opc with
    | .boolNegate =>
      let B := R.convertToBoolean
      if B.1 then some (true, B.2) -- both outputs possible => both inputs possible
      else
        (addU64 (B.2.left ^^^ 1) 1).map fun next =>
          (true, { B.2 with left := B.2.left ^^^ 1, right := next })
    | .copy => some (true, R)
    | .int2comp =>
      some (true, { R with
        left := wrappingAdd (wrappingAdd (notU64 R.right) 1) R.stepU &&& R.mask
        right := wrappingAdd (wrappingAdd (notU64 R.left) 1) R.stepU &&& R.mask })
    | .intNegate =>
      some (true, { R with
        left := wrappingAdd (notU64 R.right) R.stepU &&& R.mask
        right := wrappingAdd (notU64 R.left) R.stepU &&& R.mask })
    | .intZext =>
      let val := maskOf inSize
      let rem := R.left % R.stepU
      (addU64 val 1).bind fun size => (addU64 size rem).bind fun bound =>
        (R.intersect { left := rem, right := bound, mask := R.mask, step := R.step,
                       isempty := false }).map fun s =>
          if s.1 ≠ 0 then (false, s.2)
          else (true, { s.2 with left := s.2.left &&& val, right := s.2.right &&& val,
                                 mask := s.2.mask &&& val })
    | .intSext =>
      let val := maskOf inSize
      let rem := R.left &&& R.stepU
      (addU64 (val ^^^ (val >>> 1)) rem).bind fun left =>
        (signExtend left inSize outSize).bind fun right =>
          (intersect { left := left, right := right, mask := R.mask, step := R.step,
                       isempty := false } R).map fun s =>
            if s.1 ≠ 0 then (false, R)
            else if !s.2.isempty then (false, R)
            else (true, { R with left := R.left &&& val, right := R.right &&& val,
                                 mask := R.mask &&& val })
    | _ => some (false, R)

/-- The start of the comparison cases of `pull_back_binary`: coerce to a boolean range over the
input domain, keep it if both outcomes are allowed, and otherwise take the inputs `yes` whose
outcome is true, or their complement. -/
def pullBackTest (R : CircleRange) (inSize : ℕ) (yes : CircleRange → Option CircleRange) :
    Option (Bool × CircleRange) :=
  let both := R.convertToBoolean.1
  let B : CircleRange := { R.convertToBoolean.2 with mask := maskOf inSize }
  if both then some (true, B) -- all possible outs => all possible ins
  else (yes B).map fun Y => (true, if B.left = 0 then Y.complement else Y)

/-- Pull the range back through a binary operator with the constant `val` on the other input:
`true` if a valid range is formed. `slot` is the slot of the variable input. -/
def pullBackBinary (R : CircleRange) (opc : OpCode) (val slot inSize : ℕ) :
    Option (Bool × CircleRange) :=
  if R.isempty then some (true, R) -- no input maps to an empty output set
  else
    match opc with
    | .intEqual =>
      R.pullBackTest inSize fun B =>
        (addU64 val 1).map fun next => { B with left := val, right := next &&& B.mask }
    | .intNotequal =>
      R.pullBackTest inSize fun B =>
        (addU64 val 1).map fun next => { B with left := next &&& B.mask, right := val }
    | .intLess =>
      R.pullBackTest inSize fun B =>
        if slot = 0 then
          if val = 0 then some { B with isempty := true } -- `x < 0` is always false
          else some { B with left := 0, right := val }
        else if val = B.mask then some { B with isempty := true }
        else (addU64 val 1).map fun next => { B with left := next &&& B.mask, right := 0 }
    | .intLessequal =>
      R.pullBackTest inSize fun B =>
        if slot = 0 then
          (addU64 val 1).map fun next => { B with left := 0, right := next &&& B.mask }
        else some { B with left := val, right := 0 }
    | .intSless =>
      R.pullBackTest inSize fun B =>
        (addU64 (B.mask >>> 1) 1).bind fun low => -- the smallest signed value
          if slot = 0 then
            if val = low then some { B with isempty := true }
            else some { B with left := low, right := val }
          else if val = B.mask >>> 1 then some { B with isempty := true }
          else (addU64 val 1).map fun next => { B with left := next &&& B.mask, right := low }
    | .intSlessequal =>
      R.pullBackTest inSize fun B =>
        (addU64 (B.mask >>> 1) 1).bind fun low =>
          if slot = 0 then
            (addU64 val 1).map fun next => { B with left := low, right := next &&& B.mask }
          else some { B with left := val, right := low }
    | .intCarry =>
      R.pullBackTest inSize fun B =>
        if val = 0 then some { B with isempty := true } -- nothing carries adding zero
        else
          (subU64 B.mask val).map fun gap =>
            { B with left := wrappingAdd gap 1 &&& B.mask, right := 0 }
    | .intAdd =>
      some (true, { R with left := wrappingSub R.left val &&& R.mask
                           right := wrappingSub R.right val &&& R.mask })
    | .intSub =>
      if slot = 0 then
        some (true, { R with left := wrappingAdd R.left val &&& R.mask
                             right := wrappingAdd R.right val &&& R.mask })
      else
        some (true, { R with left := wrappingSub val R.left &&& R.mask
                             right := wrappingSub val R.right &&& R.mask })
    | .intRight =>
      if R.step ≠ 1 ∨ slot ≠ 0 then some (false, R)
      else
        (shrU64 (maskOf inSize) val).bind fun shifted =>
          let rightBound := wrappingAdd shifted 1 -- maximal right bound
          if (rightBound ≤ R.left ∧ rightBound ≤ R.right ∧ R.right ≤ R.left) ∨
              (R.left = 0 ∧ rightBound ≤ R.right) ∨ R.left = R.right then
            some (true, { R with left := 0, right := 0 }) -- domain is everything
          else
            let left := if rightBound < R.left then rightBound else R.left
            let right := if rightBound < R.right then 0 else R.right
            (shlU64 left val).bind fun l => (shlU64 right val).map fun r =>
              (true, R.cut (l &&& R.mask) (r &&& R.mask))
    | .intSright =>
      if R.step ≠ 1 ∨ slot ≠ 0 then some (false, R)
      else
        (addU64 val 1).bind fun amount => (shrU64 (maskOf inSize) amount).bind fun leftb0 =>
          let rightb := leftb0 ^^^ maskOf inSize -- smallest negative possible
          (addU64 leftb0 1).bind fun leftb => -- biggest positive (+1) possible
            if (leftb ≤ R.left ∧ R.left ≤ rightb ∧ leftb ≤ R.right ∧ R.right ≤ rightb ∧
                R.right ≤ R.left) ∨ R.left = R.right then
              some (true, { R with left := 0, right := 0 }) -- domain is everything
            else
              let left := if leftb < R.left ∧ R.left < rightb then leftb else R.left
              let right := if leftb < R.right ∧ R.right < rightb then rightb else R.right
              (shlU64 left val).bind fun l => (shlU64 right val).map fun r =>
                (true, R.cut (l &&& R.mask) (r &&& R.mask))
    | _ => some (false, R)

end CircleRange

end Mosura
