import BlockCompiler.Binary64.Shortest

/-!
# The text of a real

A real is written with its shortest decimal.  Between `10 ^ (-4)` and `10 ^ 16` the notation is
positional and shows at least one place after the point; outside, one digit stands before the point
and a power of ten follows an `e`.
-/

namespace BlockCompiler

/-- Which scientific exponents are written positionally: from `first` on and below `limit`. -/
structure PositionalRange where
  first : Int
  limit : Int

namespace Decimal

/-- The digits of a decimal, most significant first. -/
def digitText (d : Decimal) : List Char := Nat.toDigits 10 d.digits

/-- The power of ten of the first digit. -/
def scientificExponent (d : Decimal) : Int := d.exponent + (d.digitText.length : Int) - 1

/-- Positional notation; an integer gets one zero after the point. -/
def positional (d : Decimal) : List Char :=
  let ds := d.digitText
  let e := d.scientificExponent
  if e < 0 then '0' :: '.' :: (List.replicate ((-e).toNat - 1) '0' ++ ds)
  else
    let whole := e.toNat + 1
    if ds.length ≤ whole then ds ++ List.replicate (whole - ds.length) '0' ++ ['.', '0']
    else ds.take whole ++ '.' :: ds.drop whole

/-- One digit before the point, and none after it if there is only one. -/
def scientific (d : Decimal) : List Char :=
  let mantissa := match d.digitText with
    | first :: second :: rest => first :: '.' :: second :: rest
    | short => short
  mantissa ++ 'e' :: (toString d.scientificExponent).toList

/-- The notation that the size of the decimal asks for. -/
def render (range : PositionalRange) (d : Decimal) : List Char :=
  if range.first ≤ d.scientificExponent ∧ d.scientificExponent < range.limit then d.positional
  else d.scientific

end Decimal

namespace Binary64

/-- Reals from one ten-thousandth up to sixteen digits before the point are written positionally. -/
def positionalRange : PositionalRange := ⟨-4, 16⟩

/-- The text of a real, with a sign in front of negative values and of the negative zero. -/
def render (x : Binary64) : String :=
  if x.isNaN then "NaN"
  else
    let sign := if x.isNegative then "-" else ""
    if x.isInfinite then sign ++ "inf"
    else if x.isZero then sign ++ "0.0"
    else sign ++ String.ofList (x.rounding.shortest.render positionalRange)

end Binary64

end BlockCompiler
