/-!
# Real numbers as 64-bit words

A real literal is a binary64 value.  The compiler never computes with reals: it stores them, tells
them apart and prints them.  So a real is its bit pattern, and everything about it is read off the
three fields of that pattern.

`Binary64.canonical` picks one representative of the patterns that count as one constant: the two
zeros are one, and all patterns that are not numbers are one.
-/

namespace BlockCompiler

/-- A binary64 value, by its bit pattern. -/
structure Binary64 where
  bits : UInt64
deriving DecidableEq, Repr, Inhabited

namespace Binary64

/-- The sign bit. -/
def isNegative (x : Binary64) : Bool := x.bits >>> 63 != 0

/-- The exponent field: eleven bits. -/
def exponentField (x : Binary64) : Nat := ((x.bits >>> 52) &&& 0x7FF).toNat

/-- The fraction field: the lowest 52 bits. -/
def fractionField (x : Binary64) : Nat := (x.bits &&& 0xFFFFFFFFFFFFF).toNat

/-- Neither a finite value nor an infinity. -/
def isNaN (x : Binary64) : Bool := x.exponentField == 0x7FF && x.fractionField != 0

/-- One of the two infinities. -/
def isInfinite (x : Binary64) : Bool := x.exponentField == 0x7FF && x.fractionField == 0

/-- One of the two zeros. -/
def isZero (x : Binary64) : Bool := x.bits <<< 1 == 0

/-- The zero without a sign. -/
def zero : Binary64 := ⟨0⟩

/-- One pattern that is not a number, standing for all of them. -/
def nan : Binary64 := ⟨0x7FF8000000000000⟩

/-- The representative of a value among those that are equal to it as constants. -/
def canonical (x : Binary64) : Binary64 :=
  if x.isNaN then nan else if x.isZero then zero else x

/-! ## The canonical pattern -/

theorem canonical_nan : nan.canonical = nan := by decide

theorem canonical_zero : zero.canonical = zero := by decide

/-- Choosing the representative twice changes nothing. -/
@[simp] theorem canonical_canonical (x : Binary64) : x.canonical.canonical = x.canonical := by
  by_cases hn : x.isNaN = true
  · simp only [canonical, hn, if_true]
    exact canonical_nan
  · by_cases hz : x.isZero = true
    · simp only [canonical, hn, hz, if_true]
      exact canonical_zero
    · simp [canonical, hn, hz]

end Binary64

end BlockCompiler
