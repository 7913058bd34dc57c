import BlockCompiler.Binary64

/-!
# The shortest decimal of a real

The reals that round to one finite value form an interval around it: from halfway to the neighbour
below to halfway to the neighbour above.  Every decimal inside reads back as the value.  This
module finds the one with the fewest digits, and of two with as few the nearer to the value.

Both sides of every comparison are naturals.  `Rounding` holds the value and the ends of its
interval over one common denominator, and a decimal `c * 10 ^ t` is compared with them by
multiplying out.
-/

namespace BlockCompiler

/-- Powers here are those of the core library, whatever else is in scope. -/
local instance (priority := 2000) corePow : Pow Nat Nat := instPowNat

/-- A positive decimal: `digits * 10 ^ exponent`. -/
structure Decimal where
  digits : Nat
  exponent : Int
deriving DecidableEq, Repr

/-- A positive value and the ends of its rounding interval: `value / den` lies between `low / den`
and `high / den`, and the ends belong to the interval when `closed` holds. -/
structure Rounding where
  den : Nat
  low : Nat
  value : Nat
  high : Nat
  closed : Bool
deriving Repr

namespace Binary64

/-- The integer `m` of a finite value `m * 2 ^ q`. -/
def significand (x : Binary64) : Nat :=
  if x.exponentField = 0 then x.fractionField else 2 ^ (52 : Nat) + x.fractionField

/-- The exponent `q` of a finite value `m * 2 ^ q`. -/
def binaryExponent (x : Binary64) : Int :=
  if x.exponentField = 0 then -1074 else (x.exponentField : Int) - 1075

/-- Below a power of two the neighbour is half as far away as above it, except at the bottom of the
range. -/
def isNarrowBelow (x : Binary64) : Bool := x.fractionField == 0 && x.exponentField > 1

/-- The rounding interval of a finite value that is not zero, in quarters of its last place. -/
def rounding (x : Binary64) : Rounding :=
  let scale := 2 ^ (x.binaryExponent - 2).toNat
  let m := x.significand
  { den := 2 ^ (2 - x.binaryExponent).toNat
    low := (4 * m - if x.isNarrowBelow then 1 else 2) * scale
    value := 4 * m * scale
    high := (4 * m + 2) * scale
    closed := m % 2 == 0 }

end Binary64

namespace Rounding

/-- Whether `c * 10 ^ t` reads back as the value. -/
def contains (r : Rounding) (c : Nat) (t : Int) : Bool :=
  let point := c * 10 ^ t.toNat * r.den
  let low := r.low * 10 ^ (-t).toNat
  let high := r.high * 10 ^ (-t).toNat
  if r.closed then low ≤ point && point ≤ high else low < point && point < high

/-- The last point of the grid `10 ^ t` that is not above the value. -/
def gridFloor (r : Rounding) (t : Int) : Nat :=
  r.value * 10 ^ (-t).toNat / (r.den * 10 ^ t.toNat)

/-- Whether the value lies strictly below the middle of the grid step that starts at `c`. -/
def isLowerHalf (r : Rounding) (c : Nat) (t : Int) : Bool :=
  2 * r.value * 10 ^ (-t).toNat < (2 * c + 1) * (r.den * 10 ^ t.toNat)

/-- The point of the grid `10 ^ t` nearest to the value among those that read back.  From the
middle of a step both neighbours are as near, and the upper one is taken. -/
def onGrid? (r : Rounding) (t : Int) : Option Nat :=
  let c := r.gridFloor t
  if r.contains c t then
    if r.contains (c + 1) t && !r.isLowerHalf c t then some (c + 1) else some c
  else if r.contains (c + 1) t then some (c + 1)
  else none

/-- The least `k` with the value below `10 ^ k`. -/
def magnitude (r : Rounding) : Int :=
  if r.den ≤ r.value then (Nat.toDigits 10 (r.value / r.den)).length
  else 1 - (Nat.toDigits 10 ((r.den - 1) / r.value)).length

/-- Seventeen significant digits tell any two values apart. -/
def maxDigits : Nat := 17

/-- Moves trailing zeros of the digits into the exponent. -/
def trim : Nat → Nat → Int → Decimal
  | 0, c, t => ⟨c, t⟩
  | fuel + 1, c, t => if c % 10 = 0 then trim fuel (c / 10) (t + 1) else ⟨c, t⟩

/-- The decimal with the fewest digits that reads back, found on ever finer grids. -/
def shortest (r : Rounding) : Decimal :=
  let k := r.magnitude
  let grids := (List.range maxDigits).map fun n : Nat => k - 1 - (n : Int)
  match grids.findSome? fun t => (r.onGrid? t).map fun c => (c, t) with
  | some (c, t) => trim maxDigits c t
  | none => ⟨r.gridFloor (k - maxDigits), k - maxDigits⟩

end Rounding

end BlockCompiler
